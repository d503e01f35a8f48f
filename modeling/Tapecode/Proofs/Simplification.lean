import Tapecode.Proofs.Balance
import Tapecode.Proofs.Replay
import Tapecode.Proofs.Rewriting

/-!
# What a builder makes of a nest

The instructions that a builder holds since the start of its innermost open loop are those of a
nest, last first. Replaying one more instruction, or a whole loop, turns them into those of another
nest. Here it is said which nests these can be, without a builder and without runs:

* `Nest.Takes`: an effect follows a nest, and is appended to it or combined with its end;
* `Nest.Closes`: a loop is closed after a nest, and is dropped, turned into a set or kept;
* `Nest.Simplifies`: a whole nest follows another one.

`Builder.replays_simplifies` says that a builder does nothing else, whatever its passes. The amounts
that are added by the loops it turns into sets are listed by `Builder.clearedBy`.
-/

namespace Tapecode

/-! ## Rules -/

namespace Nest

/-- An effect on the cell at `o` follows a nest: it stands at the end of the new nest, or the end of
the nest is rewritten. -/
inductive Takes (o : Int) : Effect → Nest → Nest → Prop
  | append (e : Effect) (r : Nest) : Takes o e r (r ++ .act e o .done)
  /-- A write of a cell that is then overwritten is dropped. -/
  | overwrite {e w : Effect} {r r' : Nest} (he : e.isStore = true) (hw : w.isWrite = true)
      (h : Takes o e r r') : Takes o e (r ++ .act w o .done) r'
  /-- A change of a cell that has just been written is merged into the write, unless nothing is left
  of it. -/
  | merge {d : Int8} {w w' : Effect} {r : Nest} (hw : w.isWrite = true) (hw' : w'.isWrite = true)
      (hleft : w' ≠ .change 0) (h : ∀ v, w'.written v = w.written v + Word.byte d.toInt) :
      Takes o (.change d) (r ++ .act w o .done) (r ++ .act w' o .done)
  /-- A change that undoes the write before it cancels it. -/
  | cancel {d : Int8} {w : Effect} {r : Nest} (hw : w.isWrite = true)
      (h : ∀ v, w.written v + Word.byte d.toInt = v) :
      Takes o (.change d) (r ++ .act w o .done) r

/-- A loop is closed after the nest `r`, in the open loops `outer`. The last argument is the offset
from which later offsets count. Only loops whose change is in `clears` are turned into sets. -/
inductive Closes (clears : Int8 → Prop) (outer : List OpenLoop) (r : Nest) (entry : Int) :
    Nest → Int → Nest → Int → Prop
  | removed {body : Nest} {exit : Int} (h : Builder.isDead ⟨r.backwards, entry⟩ outer = true) :
      Closes clears outer r entry body exit r entry
  | cleared {d : Int8} {r' : Nest} (hd : clears d) (h : r.Takes entry (.set 0) r') :
      Closes clears outer r entry (.act (.change d) 0 .done) 0 r' entry
  | kept (body : Nest) (exit : Int) :
      Closes clears outer r entry body exit (r ++ .loop entry body exit .done) 0

/-- The nest `r`, whose later offsets count from `base`, and a nest that follows it are simplified
to `r'`, whose later offsets count from `base'`. -/
inductive Simplifies (clears : Int8 → Prop) :
    List OpenLoop → Nest → Int → Nest → Nest → Int → Prop
  | done {outer : List OpenLoop} {r : Nest} {base : Int} :
      Simplifies clears outer r base .done r base
  | act {outer : List OpenLoop} {r r₁ r' rest : Nest} {base base' o : Int} {e : Effect}
      (h : r.Takes (base + o) e r₁) (hrest : Simplifies clears outer r₁ base rest r' base') :
      Simplifies clears outer r base (.act e o rest) r' base'
  | loop {outer : List OpenLoop} {r r₁ r' body body' rest : Nest} {base base₁ base' a x k : Int}
      (hbody : Simplifies clears (⟨r.backwards, base + a⟩ :: outer) .done 0 body body' k)
      (hclose : Closes clears outer r (base + a) body' (k + x) r₁ base₁)
      (hrest : Simplifies clears outer r₁ base₁ rest r' base') :
      Simplifies clears outer r base (.loop a body x rest) r' base'

end Nest

/-! ## Single instructions -/

namespace Passes

variable (passes : Passes)

/-- Dropping the writes of a cell from the end of a nest, before a store to this cell. -/
theorem dropWhile_takes {e : Effect} (he : e.isStore = true) (o : Int)
    (recent : List Instruction) :
    ∀ r : Nest, r.backwards = recent → ∃ q : Nest, q.backwards = recent.dropWhile (·.writesAt o) ∧
      r.Takes o e (q ++ .act e o .done) := by
  induction recent with
  | nil => exact fun r hr => ⟨r, hr, .append e r⟩
  | cons i older ih =>
    intro r hr
    by_cases hwrites : i.writesAt o = true
    · rw [List.dropWhile_cons_of_pos hwrites]
      cases i with
      | enter o' => exact (r.backwards_ne_enter o' older hr).elim
      | leave o' => simp [Instruction.writesAt, Instruction.isWrite] at hwrites
      | act w o' =>
        obtain ⟨hw, rfl⟩ : w.isWrite = true ∧ o' = o := by
          simpa [Instruction.writesAt, Instruction.isWrite, Instruction.offset] using hwrites
        obtain ⟨p, rfl, hp⟩ := Nest.exists_of_backwards_act hr
        obtain ⟨q, hq, htakes⟩ := ih p hp
        exact ⟨q, hq, .overwrite he hw htakes⟩
    · rw [List.dropWhile_cons_of_neg hwrites]
      exact ⟨r, hr, .append e r⟩

/-- A set or an input, with the writes before it dropped or not. -/
theorem emitStore_takes {e : Effect} (he : e.isStore = true) (o : Int) (r : Nest) :
    ∃ r' : Nest, r'.backwards = passes.emitStore e o r.backwards ∧ r.Takes o e r' := by
  by_cases hdead : passes.deadStores = true
  · obtain ⟨q, hq, htakes⟩ := dropWhile_takes he o r.backwards r rfl
    refine ⟨q ++ .act e o .done, ?_, htakes⟩
    rw [Nest.backwards_append_act, emitStore, if_pos hdead, hq]
  · refine ⟨r ++ .act e o .done, ?_, .append e r⟩
    rw [Nest.backwards_append_act, emitStore, if_neg hdead]

/-- A change that follows a write of the same cell. -/
theorem followedBy_takes {d : Int8} {w : Effect} {o : Int} {merged : List Instruction}
    (h : (Instruction.act w o).followedBy d = some merged) (q : Nest) :
    ∃ r' : Nest, r'.backwards = merged ++ q.backwards ∧
      (q ++ .act w o .done).Takes o (.change d) r' := by
  cases w with
  | input => cases h
  | output => cases h
  | set v =>
    obtain rfl := Option.some.inj h
    refine ⟨q ++ .act (.set (v + d)) o .done, by rw [Nest.backwards_append_act]; rfl, ?_⟩
    exact .merge rfl rfl nofun fun _ => Word.byte_toInt_add v d
  | change c =>
    by_cases hcancel : c + d = 0
    · simp only [Instruction.followedBy, Effect.followedBy, if_pos hcancel] at h
      obtain rfl := Option.some.inj h
      refine ⟨q, rfl, .cancel rfl fun v => ?_⟩
      rw [Effect.written, UInt8.add_assoc, ← Word.byte_toInt_add, hcancel]
      exact UInt8.add_zero v
    · simp only [Instruction.followedBy, Effect.followedBy, if_neg hcancel] at h
      obtain rfl := Option.some.inj h
      refine ⟨q ++ .act (.change (c + d)) o .done, by rw [Nest.backwards_append_act]; rfl,
        .merge rfl rfl (fun h => hcancel (Effect.change.inj h)) fun v => ?_⟩
      rw [Effect.written, Effect.written, UInt8.add_assoc, ← Word.byte_toInt_add]

/-- A change, combined with the instruction before it or not. -/
theorem emitChange_takes (d : Int8) (o : Int) (r : Nest) :
    ∃ r' : Nest, r'.backwards = passes.emitChange d o r.backwards ∧ r.Takes o (.change d) r' := by
  have happend : r.Takes o (.change d) (r ++ .act (.change d) o .done) := .append _ r
  rcases hr : r.backwards with _ | ⟨last, older⟩
  · exact ⟨_, by rw [Nest.backwards_append_act, hr]; rfl, happend⟩
  · rw [emitChange]
    by_cases hcombine : (passes.combineChanges && last.offset == o) = true
    · rw [if_pos hcombine]
      cases hmerged : last.followedBy d with
      | none => exact ⟨_, by rw [Nest.backwards_append_act, hr], happend⟩
      | some merged =>
        cases last with
        | enter o' => cases hmerged
        | leave o' => cases hmerged
        | act w o' =>
          obtain ⟨-, rfl⟩ : passes.combineChanges = true ∧ o' = o := by
            simpa [Instruction.offset] using hcombine
          obtain ⟨q, rfl, rfl⟩ := Nest.exists_of_backwards_act hr
          exact followedBy_takes hmerged q
    · rw [if_neg hcombine]
      exact ⟨_, by rw [Nest.backwards_append_act, hr], happend⟩

theorem emit_takes (e : Effect) (o : Int) (r : Nest) :
    ∃ r' : Nest, r'.backwards = passes.emit e o r.backwards ∧ r.Takes o e r' := by
  cases e with
  | change d => exact emitChange_takes passes d o r
  | set v => exact emitStore_takes passes rfl o r
  | input => exact emitStore_takes passes rfl o r
  | output => exact ⟨_, Nest.backwards_append_act r .output o, .append .output r⟩

end Passes

/-! ## Replaying -/

namespace Builder

variable {b : Builder}

/-- What each round of the innermost open loop adds to the loop's cell, if ending the loop turns it
into a set. -/
def cleared? (b : Builder) : Option Int8 :=
  match b.endLoop.1, b.recent with
  | .ok .cleared, .act (.change d) _ :: _ => some d
  | _, _ => none

/-- The same for the loop that replaying an instruction ends, if any. -/
def clearedAt? (b : Builder) (base : Int) : Instruction → Option Int8
  | .leave o => cleared? { b with offset := base + o }
  | .act _ _ | .enter _ => none

/-- What is added in each round of the loops that replaying a program turns into sets, in the order
in which they are closed. -/
def clearedBy (b : Builder) (base : Int) : Program → List Int8
  | [] => []
  | i :: rest =>
    let later :=
      match b.replay base i with
      | (.ok base, b) => clearedBy b base rest
      | (.error _, _) => []
    (b.clearedAt? base i).toList ++ later

theorem clearedBy_append (b : Builder) (base : Int) (p q : Program) :
    b.clearedBy base (p ++ q) = b.clearedBy base p ++
      match b.replays base p with
      | .ok (base', b') => b'.clearedBy base' q
      | .error _ => [] := by
  induction p generalizing b base with
  | nil => rfl
  | cons i rest ih =>
    rw [List.cons_append, clearedBy, clearedBy, replays]
    rcases b.replay base i with ⟨_ | base', b'⟩
    · simp
    · simp only [ih b' base', List.append_assoc]

/-- The body of a loop that a builder turns into a set is a single change of the loop's cell. -/
theorem eq_of_isClearing {n : Nest} {offset : Int} (h : isClearing n.backwards offset = true) :
    ∃ d, n = .act (.change d) 0 .done ∧ offset = 0 := by
  unfold isClearing at h
  split at h
  · rename_i d hn
    obtain ⟨q, rfl, hq⟩ := Nest.exists_of_backwards_act hn
    obtain rfl := Nest.eq_done_of_backwards hq
    exact ⟨d, rfl, by simp_all⟩
  · cases h

/-- **The end of a loop**: dropped, turned into a set, or kept. -/
theorem leave_closes {r body : Nest} {entry : Int} {outer : List OpenLoop} (base o : Int)
    (hb : b.finalized = false) (hloops : b.loops = ⟨r.backwards, entry⟩ :: outer)
    (hrecent : b.recent = body.backwards) {clears : Int8 → Prop}
    (hclears : ∀ d ∈ b.clearedAt? base (.leave o), clears d) :
    ∃ b' base' r', b.replay base (.leave o) = (.ok base', b') ∧ b'.passes = b.passes ∧
      b'.loops = outer ∧ b'.finalized = false ∧ b'.recent = Nest.backwards r' ∧
      Nest.Closes clears outer r entry body (base + o) r' base' := by
  by_cases hdead : (b.passes.deadLoops && isDead ⟨r.backwards, entry⟩ outer) = true
  · refine ⟨{ b with recent := r.backwards, loops := outer, offset := entry }, entry, r, ?_,
      rfl, rfl, hb, rfl, ?_⟩
    · simp only [replay, endLoop, hb, hloops, hdead, if_true, Bool.false_eq_true, if_false,
        Except.map]
    · rw [Bool.and_eq_true] at hdead
      exact .removed hdead.2
  · by_cases hclear : (b.passes.clearLoops && isClearing b.recent (base + o)) = true
    · obtain ⟨r', hr', htakes⟩ := b.passes.emitStore_takes (e := .set 0) rfl entry r
      refine ⟨{ b with recent := r'.backwards, loops := outer, offset := entry }, entry, r',
        ?_, rfl, rfl, hb, rfl, ?_⟩
      · simp only [replay, endLoop, hb, hloops, hdead, if_true, Bool.false_eq_true, if_false,
          Except.map, Instruction.offset, Arithmetic.exact_add, hclear, hr']
      · have hcleared := hclear
        rw [Bool.and_eq_true, hrecent] at hclear
        obtain ⟨d, rfl, hzero⟩ := eq_of_isClearing hclear.2
        have hd : cleared? { b with offset := base + o } = some d := by
          simp only [cleared?, endLoop, hb, hloops, hdead, Bool.false_eq_true, if_false, hcleared,
            if_true]
          rw [hrecent]
          rfl
        rw [hzero]
        exact .cleared (hclears d hd) htakes
    · refine ⟨{ b with
          recent := .leave (base + o) :: (b.recent ++ .enter entry :: r.backwards)
          loops := outer
          offset := 0 }, 0, r ++ .loop entry body (base + o) .done, ?_, rfl, rfl, hb, ?_,
          .kept body _⟩
      · simp only [replay, endLoop, hb, hloops, hdead, Bool.false_eq_true, if_false, Except.map,
          Instruction.offset, Arithmetic.exact_add, hclear]
      · rw [Nest.backwards_append_loop, hrecent]

/-- **Replaying a nest** leaves the open loops alone and simplifies the nest. -/
theorem replays_simplifies (clears : Int8 → Prop) (n : Nest) (b : Builder) (base : Int) (r : Nest)
    (hb : b.finalized = false) (hr : b.recent = r.backwards)
    (hclears : ∀ d ∈ b.clearedBy base n.program, clears d) :
    ∃ b' base' r', b.replays base n.program = .ok (base', b') ∧ b'.passes = b.passes ∧
      b'.loops = b.loops ∧ b'.finalized = false ∧ b'.recent = Nest.backwards r' ∧
      Nest.Simplifies clears b.loops r base n r' base' := by
  induction n generalizing b base r with
  | done => exact ⟨b, base, r, rfl, rfl, rfl, hb, hr, .done⟩
  | act e o rest ih =>
    obtain ⟨r₁, hr₁, htakes⟩ := b.passes.emit_takes e (base + o) r
    have hreplay := replay_act (a := .exact) hb base e o
    rw [Arithmetic.exact_add, hr, ← hr₁] at hreplay
    obtain ⟨b', base', r', hreplays, hpasses, hloops, hfin, hrecent, hrest⟩ :=
      ih { b with offset := base + o, recent := r₁.backwards } base r₁ hb rfl
        (by simpa [Nest.program, clearedBy, clearedAt?, hreplay] using hclears)
    refine ⟨b', base', r', ?_, hpasses, hloops, hfin, hrecent, .act htakes hrest⟩
    rw [Nest.program, replays, hreplay]
    exact hreplays
  | loop a body x rest ihBody ihRest =>
    have henter := replay_enter (a := .exact) hb base a
    rw [Arithmetic.exact_add, hr] at henter
    rw [Nest.program, clearedBy, henter] at hclears
    simp only [clearedAt?, Option.toList_none, List.nil_append, clearedBy_append] at hclears
    -- the body, in a loop of its own
    obtain ⟨b₁, k, body', hreplays₁, hpasses₁, hloops₁, hfin₁, hrecent₁, hbody⟩ :=
      ihBody { b with recent := [], loops := ⟨r.backwards, base + a⟩ :: b.loops, offset := 0 } 0
        .done hb rfl fun d hd => hclears d (List.mem_append_left _ hd)
    simp only [hreplays₁, clearedBy, List.mem_append, Option.mem_toList] at hclears
    -- its end
    obtain ⟨b₂, base₂, r₂, hreplay₂, hpasses₂, hloops₂, hfin₂, hrecent₂, hclose⟩ :=
      leave_closes k x hfin₁ hloops₁ hrecent₁ fun d hd => hclears d (.inr (.inl hd))
    -- what follows
    obtain ⟨b', base', r', hreplays, hpasses, hloops, hfin, hrecent, hrest⟩ :=
      ihRest b₂ base₂ r₂ hfin₂ hrecent₂ fun d hd => hclears d (.inr (.inr (by rwa [hreplay₂])))
    rw [hloops₂] at hrest
    refine ⟨b', base', r', ?_, ?_, hloops.trans hloops₂, hfin, hrecent, .loop hbody hclose hrest⟩
    · rw [Nest.program, replays, henter]
      simp only [replays_append, hreplays₁]
      rw [replays, hreplay₂]
      exact hreplays
    · rw [hpasses, hpasses₂, hpasses₁]

end Builder

/-- **Optimising a nest simplifies it**, from the start of a program. -/
theorem Nest.optimize_simplifies (passes : Passes) (clears : Int8 → Prop) (n : Nest)
    (hclears : ∀ d ∈ ({ passes } : Builder).clearedBy 0 n.program, clears d) :
    ∃ (n' : Nest) (base : Int), n.program.optimize passes = .ok n'.program ∧
      Simplifies clears [] .done 0 n n' base := by
  obtain ⟨b', base, n', hreplays, -, hloops, hfin, hrecent, hsimplifies⟩ :=
    Builder.replays_simplifies clears n { passes } 0 .done rfl rfl hclears
  refine ⟨n', base, ?_, hsimplifies⟩
  rw [Program.optimize, Builder.replayAll_eq, hreplays]
  have hprogram : b'.instructions = n'.program := by
    rw [Builder.instructions, hloops, Builder.unwind, hrecent, Nest.backwards, List.reverse_reverse]
  exact (Builder.finalize_of_loops_eq_nil hfin hloops).trans (congrArg _ hprogram)

end Tapecode
