import Tapecode.Proofs.Layout

/-!
# Runs on their way

`Nest.Runs` says how a run ends, and nothing of a run that does not. `Nest.Visits` says to which
states a run comes, whether it ends or not: at a place in the program, given by the instructions
that stand before it, and in a state. A run that comes to states with any number of steps is endless
(`Nest.Endless`).

* `Nest.Visits.step`, `Nest.Visits.reaches`: at each place that is visited, a step of the machine
  leads to a place that is visited, and the machine comes to every such place.
* `Nest.reaches_iff`: so the machine comes to exactly the places and states that are visited.
* `Nest.endless_iff`: the machine runs for ever exactly if the structured run is endless.

`Program.compile_simulates` puts this together with how runs end.
-/

namespace Tapecode

open Machine Behaviour

/-! ## Places in a run -/

namespace Behaviour

/-- Some complete rounds lead from one state to another. Each of them begins on a cell that is not
zero. -/
inductive Rounds (round : Behaviour) : State → State → Prop
  | none (s : State) : Rounds round s s
  | more {s t u : State} (h : Rounds round s t) (hcell : t.current ≠ 0) (hround : round t (.done u)) :
      Rounds round s u

/-- What follows some rounds of a loop is how the loop goes on. -/
theorem Rounds.iterates {round : Behaviour} {s t : State} {r : Outcome} (h : Rounds round s t)
    (hrest : Iterates round t r) : Iterates round s r := by
  induction h with
  | none => exact hrest
  | more _ hcell hround ih => exact ih (.again hcell hround hrest)

/-- Where a round is to follow, the first one was to follow as well. -/
theorem Rounds.current_ne_zero {round : Behaviour} {s t : State} (h : Rounds round s t)
    (ht : t.current ≠ 0) : s.current ≠ 0 := by
  induction h with
  | none => exact ht
  | more _ hcell _ ih => exact ih hcell

end Behaviour

/-- A run of a nest comes to a state, with the instructions `before` standing before the next one. -/
inductive Nest.Visits (settings : Settings) : Nest → State → Program → State → Prop
  | here {n : Nest} {s : State} : Visits settings n s [] s
  | act {e : Effect} {o : Int} {rest : Nest} {s t u : State} {before : Program}
      (hrun : e.run settings o s = .done t) (hrest : rest.Visits settings t before u) :
      Visits settings (.act e o rest) s (.act e o :: before) u
  /-- Inside a loop, after some complete rounds. -/
  | inside {entry exit : Int} {body rest : Nest} {s t v u : State} {before : Program}
      (hmove : s.moveBy settings entry = .done t)
      (hrounds : Rounds (round settings (body.Runs settings) exit) t v) (hcell : v.current ≠ 0)
      (hbody : body.Visits settings v before u) :
      Visits settings (.loop entry body exit rest) s (.enter entry :: before) u
  /-- Behind a loop that has come to its end. -/
  | behind {entry exit : Int} {body rest : Nest} {s t u : State} {before : Program}
      (hloop : Behaviour.loop settings entry (body.Runs settings) exit s (.done t))
      (hrest : rest.Visits settings t before u) :
      Visits settings (.loop entry body exit rest) s
        (.enter entry :: (body.program ++ .leave exit :: before)) u

theorem afterTest_of_zero {inside outside : Nat} {s : State} (h : s.current = 0) :
    afterTest inside outside s = outside :=
  if_pos h

theorem afterTest_of_ne_zero {inside outside : Nat} {s : State} (h : s.current ≠ 0) :
    afterTest inside outside s = inside :=
  if_neg h

/-- A run that comes to states with any number of steps. -/
def Nest.Endless (settings : Settings) (n : Nest) (s : State) : Prop :=
  ∀ k, ∃ before t, n.Visits settings s before t ∧ k ≤ t.steps

namespace Nest

theorem encode_append (n k : Nest) : (n ++ k).encode = n.encode ++ k.encode := by
  induction n with
  | done => rfl
  | act e o rest ih =>
    change (e.op o).words ++ (rest ++ k).encode = _
    rw [ih]
    simp [encode]
  | loop entry body exit rest _ ih =>
    change _ ++ (_ ++ (_ ++ (rest ++ k).encode)) = _
    rw [ih]
    simp [encode]

namespace Visits

variable {settings : Settings} {n : Nest} {s t : State} {before : Program}

theorem isPrefix (h : n.Visits settings s before t) : before <+: n.program := by
  induction h with
  | here => exact List.nil_prefix
  | act _ _ ih => exact (List.prefix_cons_inj _).mpr ih
  | inside _ _ _ _ ih => exact (List.prefix_cons_inj _).mpr (ih.trans (List.prefix_append _ _))
  | behind _ _ ih =>
    refine (List.prefix_cons_inj _).mpr ?_
    exact (List.prefix_append_right_inj _).mpr ((List.prefix_cons_inj _).mpr ih)

/-- A run that comes to the end of a nest ends there. -/
theorem runs (h : n.Visits settings s n.program t) : n.Runs settings s (.done t) := by
  induction n generalizing s with
  | done =>
    cases h
    rfl
  | act e o rest ih =>
    cases h with
    | act hrun hrest => exact seq_done hrun (ih hrest)
  | loop entry body exit rest _ ih =>
    -- a place inside the loop has fewer instructions before it
    generalize hp : (Nest.loop entry body exit rest).program = p at h
    cases h with
    | here => cases hp
    | inside hmove hrounds hcell hbody =>
      have hlength := hbody.isPrefix.length_le
      rw [← (List.cons.inj hp).2] at hlength
      simp only [List.length_append, List.length_cons] at hlength
      omega
    | behind hloop hrest =>
      obtain ⟨-, hbefore⟩ := List.cons.inj (List.append_cancel_left (List.cons.inj hp).2)
      subst hbefore
      exact seq_done hloop (ih hrest)

/-! ## The machine at a place -/

variable {code : Array Word} {address : Nat}

/-- After a test of its cell, a loop goes on inside or behind. -/
theorem of_test (address : Nat) {entry exit : Int} {body : Nest} (rest : Nest) {u v : State}
    (hmove : s.moveBy settings entry = .done u)
    (hrounds : Rounds (round settings (body.Runs settings) exit) u v) :
    ∃ before, (Nest.loop entry body exit rest).Visits settings s before v ∧
      afterTest (address + 3) (address + 3 + (body.encode.length + 3)) v =
        address + Program.width before := by
  by_cases hcell : v.current = 0
  · refine ⟨_, .behind (seq_done hmove (hrounds.iterates (.stop hcell))) .here, ?_⟩
    rw [afterTest_of_zero hcell, length_encode]
    simp
    omega
  · refine ⟨_, .inside hmove hrounds hcell .here, ?_⟩
    rw [afterTest_of_ne_zero hcell]
    simp

/-- The first step of a nest. -/
theorem step_here (hplaced : Placed code address n.encode) (hin : n.program ≠ []) {m : Machine}
    (hstep : (s.machine address).step code settings = .running m) :
    ∃ before t, n.Visits settings s before t ∧ m = t.machine (address + Program.width before) := by
  cases n with
  | done => exact absurd rfl hin
  | act e o rest =>
    rw [Tapecode.step_act s hplaced.left] at hstep
    cases hrun : e.run settings o s with
    | fault cause t =>
      rw [hrun] at hstep
      cases hstep
    | done t =>
      rw [hrun] at hstep
      refine ⟨_, t, .act hrun .here, (Progress.running.inj hstep).symm.trans ?_⟩
      simp
  | loop entry body exit rest =>
    obtain ⟨henter, -, hleave, -⟩ := placed_loop hplaced
    have hend : address + 3 + body.encode.length + 3 ≤ code.size := hleave.add_length_le
    rw [Tapecode.step_enter s henter (by omega)] at hstep
    cases hmove : s.moveBy settings entry with
    | fault cause t =>
      rw [hmove] at hstep
      cases hstep
    | done t =>
      rw [hmove] at hstep
      obtain ⟨before, hvisits, haddress⟩ := of_test address rest hmove (.none t)
      exact ⟨before, t, hvisits, (Progress.running.inj hstep).symm.trans (by rw [haddress])⟩

/-- **A step of the machine leads from a place that is visited to one that is visited.** -/
theorem step (hplaced : Placed code address n.encode) (h : n.Visits settings s before t)
    (hin : before ≠ n.program) {m : Machine}
    (hstep : (t.machine (address + before.width)).step code settings = .running m) :
    ∃ before' t', n.Visits settings s before' t' ∧
      m = t'.machine (address + Program.width before') := by
  induction h generalizing address with
  | here => exact step_here hplaced hin.symm hstep
  | @act e o rest s u t before hrun hrest ih =>
    have hwidth : address + Program.width (.act e o :: before) =
        address + (e.op o).words.length + before.width := by
      simp
      omega
    rw [hwidth] at hstep
    obtain ⟨before', t', hvisits, hm⟩ :=
      ih hplaced.right (fun h => hin (congrArg (Instruction.act e o :: ·) h)) hstep
    refine ⟨_, t', .act hrun hvisits, hm.trans (congrArg t'.machine ?_)⟩
    simp
    omega
  | @inside entry exit body rest s u v t before hmove hrounds hcell hbody ih =>
    obtain ⟨-, hinner, hleave, -⟩ := placed_loop hplaced
    have hwidth : address + Program.width (.enter entry :: before) =
        address + 3 + before.width := by
      simp
      omega
    rw [hwidth] at hstep
    by_cases hend : before = body.program
    · -- the body has been run to its end, and the cell is tested again
      subst hend
      have hrun := hbody.runs
      rw [← length_encode, Tapecode.step_leave t hleave (by omega)] at hstep
      cases hmove' : t.moveBy settings exit with
      | fault cause t' =>
        rw [hmove'] at hstep
        cases hstep
      | done t' =>
        rw [hmove'] at hstep
        obtain ⟨before', hvisits, haddress⟩ := of_test address rest hmove
          (hrounds.more hcell (seq_done hrun hmove'))
        refine ⟨before', t', hvisits, (Progress.running.inj hstep).symm.trans ?_⟩
        have hinside : address + 3 + body.encode.length + 3 - (body.encode.length + 3) =
            address + 3 := by omega
        rw [← haddress, hinside, Nat.add_assoc (address + 3)]
    · obtain ⟨before', t', hvisits, hm⟩ := ih hinner hend hstep
      refine ⟨_, t', .inside hmove hrounds hcell hvisits, hm.trans (congrArg t'.machine ?_)⟩
      simp
      omega
  | @behind entry exit body rest s u t before hloop hrest ih =>
    obtain ⟨-, -, -, hafter⟩ := placed_loop hplaced
    have hwidth (before : Program) :
        address + Program.width (.enter entry :: (body.program ++ .leave exit :: before)) =
        address + 3 + (body.encode.length + 3) + before.width := by
      rw [length_encode]
      simp
      omega
    rw [hwidth] at hstep
    have hin' : before ≠ rest.program := by
      rintro rfl
      exact hin rfl
    obtain ⟨before', t', hvisits, hm⟩ := ih hafter hin' hstep
    exact ⟨_, t', .behind hloop hvisits, by rw [hm, hwidth]⟩

/-- Some complete rounds, from one test of the loop's cell to another. -/
theorem reaches_of_rounds {body : Nest} {exit : Int} {inside : Nat} {u v : State}
    (hinner : Placed code inside body.encode)
    (hleave : Placed code (inside + body.encode.length)
      (Op.jumpIfNotZero exit ((body.encode.length + 3 : Nat) : Int)).words)
    (h : Rounds (round settings (body.Runs settings) exit) u v) :
    Reaches code settings
      (u.machine (afterTest inside (inside + (body.encode.length + 3)) u))
      (v.machine (afterTest inside (inside + (body.encode.length + 3)) v)) := by
  induction h with
  | none => exact .refl _
  | @more v w _ hcell hround ih =>
    rcases seq_inv hround with ⟨cause, t, -, he⟩ | ⟨t, hrun, hmove⟩
    · cases he
    · have hstep : (t.machine (inside + body.encode.length)).step code settings = _ :=
        Tapecode.step_leave t hleave (by omega)
      have hinside : inside + body.encode.length + 3 - (body.encode.length + 3) = inside := by
        omega
      rw [show t.moveBy settings exit = .done w from hmove, hinside, Nat.add_assoc inside] at hstep
      rw [afterTest_of_ne_zero hcell] at ih
      have hbody : Reaches code settings (v.machine inside) _ := hrun.carries hinner
      exact (ih.trans hbody).trans (.of_step hstep)

/-- **The machine comes to every place that is visited.** -/
theorem reaches (hplaced : Placed code address n.encode) (h : n.Visits settings s before t) :
    Reaches code settings (s.machine address) (t.machine (address + before.width)) := by
  induction h generalizing address with
  | here => exact .refl _
  | @act e o rest s u t before hrun hrest ih =>
    have hstep : (s.machine address).step code settings = _ := Tapecode.step_act s hplaced.left
    rw [hrun] at hstep
    have hwidth : address + Program.width (.act e o :: before) =
        address + (e.op o).words.length + before.width := by
      simp
      omega
    rw [hwidth]
    exact (Reaches.of_step hstep).trans (ih hplaced.right)
  | @inside entry exit body rest s u v t before hmove hrounds hcell hbody ih =>
    obtain ⟨henter, hinner, hleave, -⟩ := placed_loop hplaced
    have hend : address + 3 + body.encode.length + 3 ≤ code.size := hleave.add_length_le
    have hstep : (s.machine address).step code settings = _ :=
      Tapecode.step_enter s henter (by omega)
    rw [hmove] at hstep
    have hrounds := reaches_of_rounds hinner hleave hrounds
    rw [afterTest_of_ne_zero hcell] at hrounds
    have hwidth : address + Program.width (.enter entry :: before) =
        address + 3 + before.width := by
      simp
      omega
    rw [hwidth]
    exact ((Reaches.of_step hstep).trans hrounds).trans (ih hinner)
  | @behind entry exit body rest s u t before hloop hrest ih =>
    have hsplit : Placed code address
        ((Nest.loop entry body exit .done).encode ++ rest.encode) := by
      rw [← encode_append]
      exact hplaced
    have hrun : (Nest.loop entry body exit .done).Runs settings s (.done u) := seq_done hloop rfl
    have hcarries : Reaches code settings (s.machine address) _ := hrun.carries hsplit.left
    have hwidth : address + Program.width (.enter entry :: (body.program ++ .leave exit :: before)) =
        address + (Nest.loop entry body exit .done).encode.length + before.width := by
      rw [length_encode]
      simp [program]
      omega
    rw [hwidth]
    exact hcarries.trans (ih hsplit.right)

end Visits

/-! ## Whole nests -/

variable {settings : Settings} {n : Nest} {s : State} {m : Machine}

/-- A run of a nest comes to the state of `m`, at the place where the counter of `m` stands in the
encoding of the nest. -/
def ComesTo (settings : Settings) (n : Nest) (s : State) (m : Machine) : Prop :=
  ∃ before t, n.Visits settings s before t ∧ m = t.machine before.width

theorem ComesTo.step {m' : Machine} (h : n.ComesTo settings s m)
    (hstep : m.step n.encode.toArray settings = .running m') : n.ComesTo settings s m' := by
  obtain ⟨before, t, hvisits, rfl⟩ := h
  have hin : before ≠ n.program := by
    rintro rfl
    rw [n.step_end _ rfl] at hstep
    cases hstep
  obtain ⟨before', t', hvisits', hm⟩ :=
    hvisits.step (Placed.whole n.encode) hin (by rwa [Nat.zero_add])
  rw [Nat.zero_add] at hm
  exact ⟨before', t', hvisits', hm⟩

theorem ComesTo.advance {k : Nat} {m' : Machine} (h : n.ComesTo settings s m)
    (hk : Machine.advance n.encode.toArray settings k m = .running m') :
    n.ComesTo settings s m' := by
  induction k generalizing m with
  | zero =>
    obtain rfl := Progress.running.inj hk
    exact h
  | succ k ih =>
    rw [Machine.advance] at hk
    cases hstep : m.step n.encode.toArray settings with
    | running m₁ =>
      rw [hstep] at hk
      exact ih (h.step hstep) hk
    | halted fault e =>
      rw [hstep] at hk
      cases hk

/-- **The machine comes to exactly the places that are visited**, in the same states. -/
theorem reaches_iff :
    Reaches n.encode.toArray settings (s.machine 0) m ↔ n.ComesTo settings s m := by
  constructor
  · rintro ⟨k, hk⟩
    exact ComesTo.advance ⟨[], s, .here, rfl⟩ hk
  · rintro ⟨before, t, h, rfl⟩
    have hreaches := h.reaches (Placed.whole n.encode)
    rwa [Nat.zero_add] at hreaches

/-- **The machine runs for ever exactly if the structured run is endless.** -/
theorem endless_iff :
    n.Endless settings s ↔ RunsForever n.encode.toArray settings (s.machine 0) := by
  constructor
  · intro h k
    obtain ⟨before, t, hvisits, hk⟩ := h (s.steps + k)
    obtain ⟨j, hj⟩ := reaches_iff.mpr ⟨before, t, hvisits, rfl⟩
    have hsteps : t.steps = s.steps + j := (advance_running hj).1
    -- a run that is over after `k` steps does not come to a state with more
    cases hadvance : Machine.advance n.encode.toArray settings k (s.machine 0) with
    | running m => exact ⟨m, rfl⟩
    | halted fault e =>
      rw [advance_of_le_of_halted (by omega) hadvance] at hj
      cases hj
  · intro h k
    obtain ⟨m, hm⟩ := h k
    obtain ⟨before, t, hvisits, rfl⟩ := reaches_iff.mp ⟨k, hm⟩
    have hsteps : t.steps = s.steps + k := (advance_running hm).1
    exact ⟨before, t, hvisits, by omega⟩

end Nest

/-! ## Whole programs -/

/-- The fault that is reported of a run after its last write. -/
def Outcome.reported (r : Outcome) : Option Fault :=
  match r.state.console.flush.1 with
  | .ok () => r.cause
  | .error e => r.cause.or (some (.io e))

/-- The machine `m` is what a run leaves behind after its last write. -/
structure Outcome.LeavesBehind (r : Outcome) (m : Machine) : Prop where
  tape : m.tape = r.state.tape
  pointer : m.pointer = r.state.pointer
  steps : m.steps = r.state.steps
  console : m.console = r.state.console.flush.2

theorem Outcome.finish_machine (r : Outcome) (address : Nat) :
    ((r.state.machine address).finish r.cause).1 = r.reported ∧
      r.LeavesBehind ((r.state.machine address).finish r.cause).2 := by
  refine ⟨finish_fst _ _, ?_⟩
  rw [finish_snd]
  exact ⟨rfl, rfl, rfl, rfl⟩

/-- **Bytecode does what the program means.** A balanced program is the program of a nest, and it
compiles. The execution of its code ends exactly if the structured run of the nest does. Then the
same fault is reported, or none, and tape, pointer, number of steps and calls on the streams are the
same. The execution runs for ever exactly if the structured run is endless, and on its way it
comes to the same states at the same places. -/
theorem Program.compile_simulates {p : Program} (hp : p.Balanced) :
    ∃ n code, Nest.program n = p ∧ p.compile = .ok code ∧ ∀ settings streams,
      (∀ r, n.Runs settings (.initial settings streams) r →
        ∃ m, Executes code settings streams r.reported m ∧ r.LeavesBehind m) ∧
      (∀ fault m, Executes code settings streams fault m →
        ∃ r, n.Runs settings (.initial settings streams) r ∧ r.reported = fault ∧
          r.LeavesBehind m) ∧
      (n.Endless settings (.initial settings streams) ↔
        RunsForever code.toArray settings (.load settings streams)) ∧
      ∀ m, Reaches code.toArray settings (.load settings streams) m ↔
        n.ComesTo settings (.initial settings streams) m := by
  obtain ⟨n, rfl⟩ := hp
  refine ⟨n, n.encode, rfl, n.compile_program, fun settings streams => ⟨?_, ?_, ?_, ?_⟩⟩
  · intro r hrun
    obtain ⟨address, hexec⟩ := Nest.executes_of_runs hrun
    obtain ⟨hfault, hleaves⟩ := r.finish_machine address
    rw [hfault] at hexec
    exact ⟨_, hexec, hleaves⟩
  · intro fault m hexec
    obtain ⟨r, address, hrun, hfinish⟩ := Nest.runs_of_executes hexec
    obtain ⟨hfault, hleaves⟩ := r.finish_machine address
    rw [hfinish] at hfault hleaves
    exact ⟨r, hrun, hfault.symm, hleaves⟩
  · exact Nest.endless_iff (s := .initial settings streams)
  · intro m
    exact Nest.reaches_iff (s := .initial settings streams)

/-- A loop that prints its cell and counts it down, on a cell that is first set to two. -/
theorem Program.compile_simulates_of_countdown :
    ∃ n r, Nest.program n = [.act (.change 2) 0, .enter 0, .act .output 0, .act (.change (-1)) 0,
        .leave 0] ∧
      n.Runs { tapeSize := 1 } (.initial { tapeSize := 1 } {}) r ∧ r.reported = none ∧
      r.state.tape = #[0] ∧ r.state.pointer = 0 ∧ r.state.steps = 8 ∧
      r.state.console.flush.2.streams.accepted = [2, 1] := by
  obtain ⟨n, code, hn, hcode, hsimulates⟩ := Program.compile_simulates
    ⟨.act (.change 2) 0 (.loop 0 (.act .output 0 (.act (.change (-1)) 0 .done)) 0 .done), rfl⟩
  obtain rfl := Except.ok.inj hcode
  obtain ⟨r, hrun, hreported, hleaves⟩ := (hsimulates { tapeSize := 1 } {}).2.1 none _
    ⟨none, _, ⟨9, rfl⟩, rfl⟩
  refine ⟨n, r, hn, hrun, hreported, hleaves.tape.symm, hleaves.pointer.symm, hleaves.steps.symm, ?_⟩
  rw [← hleaves.console]
  decide

end Tapecode
