import Tapecode.Proofs.Parsing
import Tapecode.Proofs.Simplification

/-!
# Normal forms

Whatever passes a builder has, the programs that it leaves alone can be told by looking at each
instruction together with what stands directly before it. `Passes.rewrites` is this test for one
instruction, and a program is in normal form if no instruction fails it (`Program.Normal`).

* A builder holds nothing else, whatever it is told to do (`Builder.Tidy.call`). Rewrites take
  instructions away from the end only, and what is left by that was in normal form before. So the
  result of optimising is in normal form (`Program.normal_of_optimize`).
* Replaying a balanced program in normal form puts it together again instruction by instruction
  (`Builder.replays_of_normal`), so optimising does not change it (`Program.Normal.optimize_eq`).

Hence optimising once is enough, under any passes (`optimize_reaches_fixpoint`).
-/

namespace Tapecode

/-! ## The test -/

namespace Passes

/-- Whether the instruction directly before writes the cell at `o`. -/
def writtenLast (o : Int) (older : List Instruction) : Bool :=
  older.head?.any (·.writesAt o)

/-- Whether what stands directly before leaves the cell at `o` zero: nothing at all, the end of a
loop on this cell, or a store of zero. -/
def zeroLast (o : Int) : List Instruction → Bool
  | [] => true
  | .leave _ :: _ => o == 0
  | .act (.set value) o' :: _ => value == 0 && o' == o
  | _ :: _ => false

/-- Whether a loop that ends at `o` has begun directly before, and holds nothing but a change of its
own cell. -/
def countsLast (o : Int) : List Instruction → Bool
  | .act (.change delta) 0 :: .enter _ :: _ => o == 0 && delta != 0
  | _ => false

/-- Whether some pass rewrites an instruction behind `older`, which is listed last first. -/
def rewrites (passes : Passes) (older : List Instruction) : Instruction → Bool
  | .act (.change _) o => passes.combineChanges && writtenLast o older
  | .act (.set _) o | .act .input o => passes.deadStores && writtenLast o older
  | .act .output _ => false
  | .enter o => passes.deadLoops && zeroLast o older
  | .leave o => passes.clearLoops && countsLast o older

/-- No pass rewrites any of the instructions `recent`, which stand behind `older`. Both are listed
last first. -/
def Normal (passes : Passes) (older : List Instruction) : List Instruction → Prop
  | [] => True
  | i :: rest => passes.rewrites (rest ++ older) i = false ∧ Normal passes older rest

variable {passes : Passes}

theorem normal_append {older xs ys : List Instruction} :
    passes.Normal older (xs ++ ys) ↔ passes.Normal (ys ++ older) xs ∧ passes.Normal older ys := by
  induction xs with
  | nil => simp [Normal]
  | cons x xs ih => simp [Normal, ih, and_assoc]

theorem normal_act {older : List Instruction} {e : Effect} {o : Int} {rest : Nest} :
    passes.Normal older (Nest.act e o rest).backwards ↔
      passes.rewrites older (.act e o) = false ∧
        passes.Normal (.act e o :: older) rest.backwards := by
  rw [Nest.backwards_act, normal_append, and_comm]
  simp [Normal]

theorem normal_loop {older : List Instruction} {entry exit : Int} {body rest : Nest} :
    passes.Normal older (Nest.loop entry body exit rest).backwards ↔
      passes.rewrites older (.enter entry) = false ∧
        passes.Normal (.enter entry :: older) body.backwards ∧
        passes.rewrites (body.backwards ++ .enter entry :: older) (.leave exit) = false ∧
        passes.Normal (.leave exit :: (body.backwards ++ .enter entry :: older))
          rest.backwards := by
  simp only [Nest.backwards_loop, normal_append, Normal, List.cons_append, List.append_assoc,
    List.nil_append, and_true]
  tauto

theorem Normal.of_suffix {older xs ys : List Instruction} (h : passes.Normal older ys)
    (hs : xs <:+ ys) : passes.Normal older xs := by
  obtain ⟨zs, rfl⟩ := hs
  exact (normal_append.mp h).2

/-! ## Effects -/

theorem followedBy_eq_none_iff {i : Instruction} {d : Int8} :
    i.followedBy d = none ↔ i.isWrite = false := by
  cases i with
  | act e o =>
    cases e <;>
      simp [Instruction.followedBy, Effect.followedBy, Instruction.isWrite, Effect.isWrite]
  | enter o => simp [Instruction.followedBy, Instruction.isWrite]
  | leave o => simp [Instruction.followedBy, Instruction.isWrite]

/-- What is left of a write that a change follows is nothing, or a write of the same kind. -/
theorem rewrites_of_followedBy {i : Instruction} {d : Int8} {merged : List Instruction}
    (h : i.followedBy d = some merged) :
    merged = [] ∨ ∃ i', merged = [i'] ∧ ∀ xs, passes.rewrites xs i' = passes.rewrites xs i := by
  cases i with
  | enter o => cases h
  | leave o => cases h
  | act w o =>
    cases w with
    | input => cases h
    | output => cases h
    | set v => exact .inr ⟨_, (Option.some.inj h).symm, fun _ => rfl⟩
    | change c =>
      simp only [Instruction.followedBy, Effect.followedBy, Option.map_some, Option.some.injEq] at h
      split at h
      · exact .inl h.symm
      · exact .inr ⟨_, h.symm, fun _ => rfl⟩

/-- A store is put behind instructions of which the last does not write its cell. -/
theorem writtenLast_dropWhile {older : List Instruction} {o : Int}
    (hold : writtenLast o older = false) (recent : List Instruction) :
    writtenLast o (recent.dropWhile (·.writesAt o) ++ older) = false := by
  induction recent with
  | nil => exact hold
  | cons i rest ih =>
    by_cases hi : i.writesAt o = true
    · rwa [List.dropWhile_cons_of_pos hi]
    · rw [List.dropWhile_cons_of_neg hi]
      simpa [writtenLast] using hi

theorem normal_emitStore {older recent : List Instruction} {e : Effect} {o : Int}
    (he : ∀ xs, passes.rewrites xs (.act e o) = (passes.deadStores && writtenLast o xs))
    (hold : writtenLast o older = false) (h : passes.Normal older recent) :
    passes.Normal older (passes.emitStore e o recent) := by
  unfold emitStore
  split
  · refine ⟨?_, h.of_suffix (List.dropWhile_suffix _)⟩
    rw [he, writtenLast_dropWhile hold, Bool.and_false]
  · rename_i hoff
    exact ⟨by rw [he]; simp [hoff], h⟩

theorem normal_emitChange {older recent : List Instruction} (d : Int8) {o : Int}
    (hold : writtenLast o older = false) (h : passes.Normal older recent) :
    passes.Normal older (passes.emitChange d o recent) := by
  cases recent with
  | nil => exact ⟨by simp [rewrites, hold], trivial⟩
  | cons last rest =>
    obtain ⟨hlast, hrest⟩ := h
    rw [emitChange]
    by_cases hcombine : (passes.combineChanges && last.offset == o) = true
    · rw [if_pos hcombine]
      cases hmerged : last.followedBy d with
      | none =>
        refine ⟨?_, hlast, hrest⟩
        simp [rewrites, writtenLast, Instruction.writesAt, followedBy_eq_none_iff.mp hmerged]
      | some merged =>
        rcases rewrites_of_followedBy hmerged with rfl | ⟨i, rfl, hi⟩
        · exact hrest
        · exact ⟨(hi _).trans hlast, hrest⟩
    · rw [if_neg hcombine]
      refine ⟨?_, hlast, hrest⟩
      have hoff : passes.combineChanges = true → ¬last.offset = o := by simpa using hcombine
      cases hc : passes.combineChanges with
      | false => simp [rewrites, hc]
      | true => simp [rewrites, writtenLast, Instruction.writesAt, hoff hc]

/-- **An effect leaves a normal form**, whatever it is combined with. -/
theorem normal_emit {older recent : List Instruction} (e : Effect) {o : Int}
    (hold : writtenLast o older = false) (h : passes.Normal older recent) :
    passes.Normal older (passes.emit e o recent) := by
  cases e with
  | change d => exact normal_emitChange d hold h
  | set v => exact normal_emitStore (fun _ => rfl) hold h
  | input => exact normal_emitStore (fun _ => rfl) hold h
  | output => exact ⟨rfl, h⟩

/-- **An effect that no pass rewrites is written down as it is.** -/
theorem emit_of_not_rewrites {older recent : List Instruction} {e : Effect} {o : Int}
    (h : passes.rewrites (recent ++ older) (.act e o) = false) :
    passes.emit e o recent = .act e o :: recent := by
  cases recent with
  | nil => cases e <;> simp [emit, emitChange, emitStore]
  | cons last rest =>
    have hstore (e : Effect) (h : (passes.deadStores && last.writesAt o) = false) :
        passes.emitStore e o (last :: rest) = .act e o :: last :: rest := by
      cases hd : passes.deadStores with
      | false => simp [emitStore, hd]
      | true =>
        have hlast : last.writesAt o = false := by simpa [hd] using h
        simp [emitStore, hd, hlast]
    cases e with
    | output => rfl
    | set v => exact hstore _ h
    | input => exact hstore _ h
    | change d =>
      have h : (passes.combineChanges && last.writesAt o) = false := h
      rw [emit, emitChange]
      by_cases hcombine : (passes.combineChanges && last.offset == o) = true
      · obtain ⟨hc, ho⟩ := Bool.and_eq_true_iff.mp hcombine
        have hwrite : last.isWrite = false := by simpa [Instruction.writesAt, hc, ho] using h
        rw [if_pos hcombine, followedBy_eq_none_iff.mpr hwrite]
      · rw [if_neg hcombine]

end Passes

/-- No pass rewrites any instruction of the program. -/
def Program.Normal (passes : Passes) (p : Program) : Prop :=
  passes.Normal [] p.reverse

/-! ## Builders -/

namespace Builder

/-- What stands before the instructions since the start of the innermost open loop, last first. -/
def context : List OpenLoop → List Instruction
  | [] => []
  | l :: outer => .enter l.entry :: unwind l.before outer

theorem unwind_eq (recent : List Instruction) (loops : List OpenLoop) :
    unwind recent loops = recent ++ context loops := by
  cases loops with
  | nil => exact (List.append_nil recent).symm
  | cons l outer => rfl

/-- No pass looks past the start of an open loop. -/
theorem writtenLast_context (o : Int) (loops : List OpenLoop) :
    Passes.writtenLast o (context loops) = false := by
  cases loops <;> rfl

theorem isDead_eq (l : OpenLoop) (outer : List OpenLoop) :
    isDead l outer = Passes.zeroLast l.entry (unwind l.before outer) := by
  obtain ⟨before, entry⟩ := l
  rw [unwind_eq]
  cases before with
  | nil => cases outer <;> rfl
  | cons last older =>
    cases last with
    | enter o => rfl
    | leave o => rfl
    | act e o => cases e <;> rfl

/-- A loop counts its own cell exactly if its start and a single change stand before its end. -/
theorem isClearing_eq (n : Nest) (offset entry : Int) (older : List Instruction) :
    isClearing n.backwards offset =
      Passes.countsLast offset (n.backwards ++ .enter entry :: older) := by
  rcases n.eq_done_or_append with rfl | ⟨q, e, o, rfl⟩ | ⟨q, a, body, x, rfl⟩
  · rfl
  · rw [Nest.backwards_append_act]
    rcases hq : q.backwards with _ | ⟨i, rest⟩
    · unfold isClearing Passes.countsLast
      split <;> simp_all
    · have hi : ∀ o', i ≠ .enter o' := fun o' h => q.backwards_ne_enter o' rest (h ▸ hq)
      unfold isClearing Passes.countsLast
      split <;> simp_all
  · rw [Nest.backwards_append_loop]
    rfl

/-- The instructions around each open loop are in normal form. The start of an open loop is judged
when the loop is ended. -/
def Settled (passes : Passes) (recent : List Instruction) : List OpenLoop → Prop
  | [] => passes.Normal [] recent
  | l :: outer => passes.Normal (context (l :: outer)) recent ∧ Settled passes l.before outer

theorem Settled.normal {passes : Passes} {recent : List Instruction} {loops : List OpenLoop}
    (h : Settled passes recent loops) : passes.Normal (context loops) recent := by
  cases loops with
  | nil => exact h
  | cons l outer => exact h.1

theorem Settled.replace {passes : Passes} {recent recent' : List Instruction}
    {loops : List OpenLoop} (h : Settled passes recent loops)
    (hnew : passes.Normal (context loops) recent') : Settled passes recent' loops := by
  cases loops with
  | nil => exact hnew
  | cons l outer => exact ⟨hnew, h.2⟩

/-- A builder holds matched loops around each open one, and all of it in normal form. -/
structure Tidy (b : Builder) : Prop where
  nested : b.Nested
  settled : Settled b.passes b.recent b.loops

theorem Tidy.start (passes : Passes) : ({ passes } : Builder).Tidy :=
  ⟨.start passes, trivial⟩

variable {b b' : Builder}

/-- The end of a loop, which is dropped, turned into a set, or neither. -/
theorem Tidy.endLoop {fate : LoopFate} (h : b.Tidy) (hb : b.finalized = false)
    (hend : b.endLoop = (.ok fate, b')) : b'.Tidy := by
  obtain ⟨n, hn⟩ := h.nested.recent
  rcases hloops : b.loops with _ | ⟨l, outer⟩
  · simp [Builder.endLoop, hb, hloops] at hend
  obtain ⟨⟨before, hbefore⟩, houter⟩ := List.forall_mem_cons.mp (hloops ▸ h.nested.before)
  obtain ⟨hrecent, hsettled⟩ : Settled b.passes b.recent (l :: outer) := hloops ▸ h.settled
  rcases endLoop_cases hb hloops with ⟨-, hend'⟩ | ⟨-, -, hend'⟩ | ⟨hdead, hclear, hend'⟩
  · obtain rfl := (Prod.mk.inj (hend.symm.trans hend')).2
    exact ⟨⟨⟨before, hbefore⟩, houter⟩, hsettled⟩
  · obtain rfl := (Prod.mk.inj (hend.symm.trans hend')).2
    obtain ⟨r, hr, -⟩ := b.passes.emitStore_takes (e := .set 0) rfl l.entry before
    refine ⟨⟨⟨r, by rw [hr, hbefore]⟩, houter⟩, hsettled.replace ?_⟩
    exact Passes.normal_emitStore (fun _ => rfl) (writtenLast_context _ outer) hsettled.normal
  · obtain rfl := (Prod.mk.inj (hend.symm.trans hend')).2
    refine ⟨⟨⟨before ++ .loop l.entry n b.offset .done, ?_⟩, houter⟩, hsettled.replace ⟨?_, ?_⟩⟩
    · rw [Nest.backwards_append_loop, hn, hbefore]
    · rw [← hn, isClearing_eq n b.offset l.entry (l.before ++ context outer), hn] at hclear
      simpa [Passes.rewrites] using hclear
    · rw [isDead_eq, unwind_eq] at hdead
      rw [context, unwind_eq] at hrecent
      exact Passes.normal_append.mpr ⟨hrecent, hdead, hsettled.normal⟩

/-- **Every command leaves a tidy builder**, whatever the passes. -/
theorem Tidy.call {c : Command} (h : b.Tidy) (hb : b.finalized = false)
    {a : Arithmetic} (hcall : b.call c a = (.ok (), b')) : b'.Tidy := by
  rcases call_inv hb hcall with
    ⟨e, rfl, rfl⟩ | ⟨distance, rfl, rfl⟩ | ⟨rfl, rfl⟩ | ⟨l, outer, fate, rfl, -, hend⟩
  · obtain ⟨n, hn⟩ := h.nested.recent
    obtain ⟨r, hr, -⟩ := b.passes.emit_takes e b.offset n
    refine ⟨⟨⟨r, by rw [hr, hn]⟩, h.nested.before⟩, h.settled.replace ?_⟩
    exact Passes.normal_emit e (writtenLast_context _ b.loops) h.settled.normal
  · exact ⟨⟨h.nested.recent, h.nested.before⟩, h.settled⟩
  · refine ⟨⟨⟨.done, rfl⟩, List.forall_mem_cons.mpr ⟨h.nested.recent, h.nested.before⟩⟩, ?_⟩
    exact ⟨trivial, h.settled⟩
  · exact h.endLoop hb hend

/-! ## Replays -/

theorem Tidy.at_offset (h : b.Tidy) (offset : Int) : { b with offset }.Tidy :=
  ⟨⟨h.nested.recent, h.nested.before⟩, h.settled⟩

theorem Tidy.replay {base base' : Int} {i : Instruction} {a : Arithmetic} (h : b.Tidy)
    (hb : b.finalized = false) (hreplay : b.replay base i a = (.ok base', b')) :
    b'.Tidy ∧ b'.finalized = false ∧ b'.passes = b.passes := by
  have h' := h.at_offset (a.add base i.offset)
  cases i with
  | act e o =>
    rw [replay_act hb] at hreplay
    obtain rfl := (Prod.mk.inj hreplay).2
    exact ⟨h'.call hb (call_act (a := a) (b := { b with offset := a.add base o }) hb e), hb, rfl⟩
  | enter o =>
    rw [replay_enter hb] at hreplay
    obtain rfl := (Prod.mk.inj hreplay).2
    exact ⟨h'.call hb (call_startLoop (a := a) (b := { b with offset := a.add base o }) hb), hb, rfl⟩
  | leave o =>
    rcases hend : { b with offset := a.add base o }.endLoop with ⟨e | fate, b''⟩
    · simp [Builder.replay, Instruction.offset, hend, Except.map] at hreplay
    · rw [replay_leave hend] at hreplay
      obtain rfl := (Prod.mk.inj hreplay).2
      rcases hloops : b.loops with _ | ⟨l, outer⟩
      · simp [Builder.endLoop, hb, hloops] at hend
      · obtain ⟨fate', b'', hend', -, hfin, hpasses⟩ :=
          exists_endLoop (b := { b with offset := a.add base o }) hb hloops
        obtain rfl := (Prod.mk.inj (hend.symm.trans hend')).2
        exact ⟨h'.endLoop hb hend, hfin, hpasses⟩

theorem Tidy.replays {base base' : Int} {p : Program} {a : Arithmetic} (h : b.Tidy)
    (hb : b.finalized = false) (hreplays : b.replays base p a = .ok (base', b')) :
    b'.Tidy ∧ b'.finalized = false ∧ b'.passes = b.passes := by
  induction p generalizing b base with
  | nil =>
    obtain ⟨-, rfl⟩ := Prod.mk.inj (Except.ok.inj hreplays)
    exact ⟨h, hb, rfl⟩
  | cons i rest ih =>
    rw [Builder.replays] at hreplays
    rcases hi : b.replay base i a with ⟨_ | base₁, b₁⟩
    · simp [hi] at hreplays
    · rw [hi] at hreplays
      obtain ⟨h₁, hfin₁, hpasses₁⟩ := h.replay hb hi
      obtain ⟨h', hfin, hpasses⟩ := ih h₁ hfin₁ hreplays
      exact ⟨h', hfin, hpasses.trans hpasses₁⟩

/-- Only a builder without open loops hands over its program. -/
theorem loops_of_finalize {p : Program} (h : b.finalize.1 = .ok p) :
    b.loops = [] ∧ b.instructions = p := by
  unfold finalize at h
  split at h
  · cases h
  · split at h
    · rename_i hclosed
      exact ⟨List.isEmpty_iff.mp hclosed, Except.ok.inj h⟩
    · cases h

/-- A loop whose delimiters no pass rewrites is kept. -/
theorem endLoop_of_not_rewrites {n : Nest} {l : OpenLoop} {outer : List OpenLoop}
    (hb : b.finalized = false) (hloops : b.loops = l :: outer) (hrecent : b.recent = n.backwards)
    (henter : b.passes.rewrites (unwind l.before outer) (.enter l.entry) = false)
    (hleave : b.passes.rewrites (n.backwards ++ .enter l.entry :: unwind l.before outer)
      (.leave b.offset) = false) :
    b.endLoop = (.ok .kept, { b with
      recent := .leave b.offset :: (b.recent ++ .enter l.entry :: l.before)
      loops := outer
      offset := 0 }) := by
  rw [Passes.rewrites, ← isDead_eq] at henter
  rw [Passes.rewrites, ← isClearing_eq, ← hrecent] at hleave
  rcases endLoop_cases hb hloops with ⟨hdead, -⟩ | ⟨-, hclear, -⟩ | ⟨-, -, hend⟩
  · rw [henter] at hdead
    cases hdead
  · rw [hleave] at hclear
    cases hclear
  · exact hend

/-- **Replaying a nest in normal form puts it together again.** -/
theorem replays_of_normal (n : Nest) {b : Builder} (hb : b.finalized = false)
    (h : b.passes.Normal (unwind b.recent b.loops) n.backwards) :
    ∃ offset, b.replays 0 n.program =
      .ok (0, { b with recent := n.backwards ++ b.recent, offset }) := by
  induction n generalizing b with
  | done => exact ⟨b.offset, rfl⟩
  | act e o rest ih =>
    obtain ⟨hact, hrest⟩ := Passes.normal_act.mp h
    rw [unwind_eq] at hact
    have hreplay := replay_act (a := .exact) hb 0 e o
    rw [Arithmetic.exact_add, Int.zero_add, Passes.emit_of_not_rewrites hact] at hreplay
    obtain ⟨offset, hreplays⟩ :=
      ih (b := { b with offset := o, recent := .act e o :: b.recent }) hb
        (by rwa [← List.singleton_append, unwind_append])
    refine ⟨offset, ?_⟩
    rw [Nest.program, replays, hreplay, Nest.backwards_act, List.append_assoc]
    exact hreplays
  | loop entry body exit rest ihBody ihRest =>
    obtain ⟨henter, hbody, hleave, hrest⟩ := Passes.normal_loop.mp h
    have hreplay := replay_enter (a := .exact) hb 0 entry
    rw [Arithmetic.exact_add, Int.zero_add] at hreplay
    obtain ⟨k, hreplays₁⟩ :=
      ihBody (b := { b with recent := [], loops := ⟨b.recent, entry⟩ :: b.loops, offset := 0 }) hb
        hbody
    rw [List.append_nil] at hreplays₁
    have hkept := endLoop_of_not_rewrites (n := body) (l := ⟨b.recent, entry⟩)
      (b := { b with
        recent := body.backwards
        loops := ⟨b.recent, entry⟩ :: b.loops
        offset := 0 + exit }) hb rfl rfl henter (by simpa using hleave)
    obtain ⟨offset, hreplays₂⟩ :=
      ihRest (b := { b with
        recent := .leave exit :: (body.backwards ++ .enter entry :: b.recent)
        offset := 0 }) hb (by simpa [unwind_eq] using hrest)
    refine ⟨offset, ?_⟩
    rw [Nest.program, replays, hreplay]
    simp only [replays_append, hreplays₁]
    rw [replays, replay_leave hkept]
    simpa [Nest.backwards_loop] using hreplays₂

end Builder

/-! ## Whole programs -/

/-- **What optimising gives is balanced and in normal form.** -/
theorem Program.normal_of_optimize {passes : Passes} {p q : Program}
    {a : Arithmetic} (h : p.optimize passes a = .ok q) : q.Balanced ∧ q.Normal passes := by
  rw [Program.optimize, Builder.replayAll_eq] at h
  cases hreplays : ({ passes } : Builder).replays 0 p a with
  | error e =>
    rw [hreplays] at h
    cases h
  | ok r =>
    obtain ⟨base, b⟩ := r
    rw [hreplays] at h
    obtain ⟨htidy, -, hpasses⟩ := (Builder.Tidy.start passes).replays rfl hreplays
    obtain ⟨hloops, rfl⟩ := Builder.loops_of_finalize h
    refine ⟨htidy.nested.balanced hloops, ?_⟩
    have hsettled := htidy.settled
    rw [hpasses, hloops] at hsettled
    rwa [Program.Normal, Builder.instructions, hloops, List.reverse_reverse]

/-- **Optimising does not change a balanced program in normal form.** -/
theorem Program.Normal.optimize_eq {passes : Passes} {p : Program} (h : p.Normal passes)
    (hp : p.Balanced) : p.optimize passes = .ok p := by
  obtain ⟨n, rfl⟩ := hp
  obtain ⟨offset, hreplays⟩ := Builder.replays_of_normal n (b := { passes }) rfl h
  rw [Program.optimize, Builder.replayAll_eq, hreplays, List.append_nil]
  simp [Builder.finalize, Builder.canFinalize, Builder.instructions, Builder.unwind, Nest.backwards]

/-- **Optimising once is enough**, under any passes: neither a program that has been parsed with
them nor one that has been optimised with them changes when it is optimised again. Offsets are summed
exactly; sums that wrap make of a program what exact ones make of it at other offsets
(`Program.exists_optimize_eq`). -/
theorem optimize_reaches_fixpoint (passes : Passes) :
    (∀ source program ws, parse passes source = .ok (program, ws) →
        program.optimize passes = .ok program) ∧
      ∀ p : Program, p.Balanced →
        ∃ q, p.optimize passes = .ok q ∧ q.optimize passes = .ok q := by
  refine ⟨?_, ?_⟩
  · intro source program ws hparse
    obtain ⟨plain, -, hplain⟩ := exists_plain_of_parse hparse
    obtain ⟨hbalanced, hnormal⟩ := Program.normal_of_optimize hplain
    exact hnormal.optimize_eq hbalanced
  · rintro p ⟨n, rfl⟩
    obtain ⟨n', -, hoptimize, -⟩ := n.optimize_simplifies passes (fun _ => True) (by simp)
    obtain ⟨hbalanced, hnormal⟩ := Program.normal_of_optimize hoptimize
    exact ⟨n'.program, hoptimize, hnormal.optimize_eq hbalanced⟩

/-- The source text `,>+-<[-]+`, and a program whose changes cancel before its loop is cleared. -/
theorem optimize_reaches_fixpoint_of_cancelled_changes :
    Program.optimize .all [.act .input 0, .act (.set 1) 0] =
        .ok [.act .input 0, .act (.set 1) 0] ∧
      ∃ q, Program.optimize .all [.act (.change 1) 0, .act (.change 2) 1, .act (.change (-2)) 1,
          .enter 0, .act (.change 0) 0, .act (.change (-1)) 0, .leave 0, .act .output 0] = .ok q ∧
        q = [.act (.set 0) 0, .act .output 0] ∧ q.optimize .all = .ok q := by
  obtain ⟨hparsed, hoptimized⟩ := optimize_reaches_fixpoint .all
  refine ⟨hparsed ([.input, .right, .increment, .decrement, .left, .loopStart, .decrement,
    .loopEnd, .increment].map Symbol.byte) _ [] rfl, ?_⟩
  obtain ⟨q, hq, hagain⟩ := hoptimized [.act (.change 1) 0, .act (.change 2) 1,
      .act (.change (-2)) 1, .enter 0, .act (.change 0) 0, .act (.change (-1)) 0, .leave 0,
      .act .output 0]
    ⟨.act (.change 1) 0 (.act (.change 2) 1 (.act (.change (-2)) 1
      (.loop 0 (.act (.change 0) 0 (.act (.change (-1)) 0 .done)) 0 (.act .output 0 .done)))), rfl⟩
  exact ⟨q, hq, (Except.ok.inj hq).symm, hagain⟩

end Tapecode
