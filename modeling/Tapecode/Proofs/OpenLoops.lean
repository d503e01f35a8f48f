import Tapecode.Proofs.Encoding
import Tapecode.Proofs.FlatBuilder

/-!
# The open loops of a builder

Rewrites take instructions away from the end of a program while a builder remembers by index where
its open loops start. These indices stay right, whatever is asked of the builder, refused or not.

* A loop start has no end exactly if its loop is open after the program (`Program.openAt_iff`),
  which can be told from heights. What stands around the open loops of a builder is balanced, so the
  starts that it keeps are those without an end (`Builder.mem_starts_iff`), and every end has its
  start.
* A request that is refused changes nothing (`Builder.serve_error`). The others are counted: the
  open loops are those that were started and not ended (`Builder.loops_after`). So the counts tell
  when a loop end is refused and when the program is handed over.

A builder that keeps its instructions in one list comes to the same (`FlatBuilder.serve_flat`),
hence to no index out of range. All of this is put together in `Builder.indexes_open_loops`.
-/

namespace Tapecode

namespace Brackets

variable {α : Type} {weight : α → Int} {xs ys : List α}

theorem Inside.append (hxs : Inside weight xs) (hys : Inside weight ys) :
    Inside weight (xs ++ ys) := by
  rw [inside_iff, covered_append]
  refine ⟨inside_iff.mp hxs, ?_⟩
  intro zs hzs
  have hheight := hxs xs List.prefix_rfl
  have hrest := hys zs hzs
  omega

/-- The start of a loop does not close one. -/
theorem Inside.start {s : α} (hs : weight s = 1) (hxs : Inside weight xs) :
    Inside weight (s :: xs) := by
  have hsingle : Inside weight [s] := by simp [inside_iff, hs]
  exact hsingle.append hxs

/-- **A loop is open exactly if no end stands behind balanced items.** -/
theorem inside_iff_forall_end (hweight : ∀ x, weight x = 1 ∨ weight x = 0 ∨ weight x = -1) :
    Inside weight xs ↔
      ∀ body t rest, xs = body ++ t :: rest → weight t = -1 → ¬Balanced weight body := by
  constructor
  · rintro h body t rest rfl ht hbody
    have hneg := h (body ++ [t]) ⟨rest, by simp⟩
    rw [height_append, height_cons, height_nil, hbody.level, ht] at hneg
    omega
  · intro h
    induction xs using List.reverseRecOn with
    | nil => exact Balanced.nil.inside
    | append_singleton xs t ih =>
      have hxs : Inside weight xs := ih fun body t' rest heq =>
        h body t' (rest ++ [t]) (by simp [heq])
      intro ys hys
      rcases List.prefix_concat_iff.mp hys with rfl | hys
      · by_contra hneg
        -- the last item ends a loop that all the others leave balanced
        have hall := hxs xs List.prefix_rfl
        rw [height_append, height_cons, height_nil] at hneg
        have hend : weight t = -1 ∧ height weight xs = 0 := by
          rcases hweight t with ht | ht | ht <;> omega
        exact h xs t [] rfl hend.1 ⟨hxs, hend.2⟩
      · exact hxs ys hys

end Brackets

open Brackets

/-! ## Loops without an end -/

namespace Program

/-- The instruction at an index starts a loop that has no end. -/
def OpenAt (p : Program) (i : Nat) : Prop :=
  ∃ before entry after, p = before ++ .enter entry :: after ∧ before.length = i ∧
    ∀ body exit rest, ¬p.IsLoop before entry body exit rest

/-- Every loop end has a loop start. -/
def EndsMatched (p : Program) : Prop :=
  ∀ before exit after, p = before ++ .leave exit :: after →
    ∃ outer entry body, before = outer ++ .enter entry :: body ∧
      p.IsLoop outer entry body exit after

/-- A loop has no end exactly if it is open after the program. -/
theorem openAt_iff {p : Program} {i : Nat} :
    p.OpenAt i ↔ ∃ before s after, p = before ++ s :: after ∧ before.length = i ∧
      s.weight = 1 ∧ Inside Instruction.weight after := by
  constructor
  · rintro ⟨before, entry, after, rfl, hlength, hno⟩
    refine ⟨before, .enter entry, after, rfl, hlength, rfl, ?_⟩
    rw [inside_iff_forall_end Instruction.weight_cases]
    rintro body t rest rfl ht hbody
    cases t with
    | act e o => cases ht
    | enter o => cases ht
    | leave exit => exact hno body exit rest ⟨rfl, balanced_iff.mpr hbody⟩
  · rintro ⟨before, s, after, rfl, hlength, hs, hafter⟩
    cases s with
    | act e o => cases hs
    | leave o => cases hs
    | enter entry =>
      refine ⟨before, entry, after, rfl, hlength, ?_⟩
      rintro body exit rest ⟨heq, hbody⟩
      obtain ⟨-, hrest⟩ := List.cons.inj (List.append_cancel_left heq)
      rw [inside_iff_forall_end Instruction.weight_cases] at hafter
      exact hafter body _ rest hrest rfl (balanced_iff.mp hbody)

/-- If no end closes a loop from before the program, each has its start in the program. -/
theorem endsMatched_of_inside {p : Program} (h : Inside Instruction.weight p) : p.EndsMatched := by
  rintro before exit after rfl
  have hbefore : Inside Instruction.weight before := fun ys hys =>
    h ys (hys.trans (List.prefix_append _ _))
  obtain ⟨opened, hlayers⟩ := hbefore.exists_layers Instruction.weight_cases
  have hend := h (before ++ [.leave exit]) ⟨after, by simp⟩
  rw [height_append, height_cons, height_nil, hlayers.height_eq, Instruction.weight] at hend
  cases hlayers with
  | flat _ =>
    rw [List.length_nil] at hend
    omega
  | @start outer body _ s _ hs hbody =>
    cases s with
    | act e o => cases hs
    | leave o => cases hs
    | enter entry => exact ⟨outer, entry, body, rfl, by simp, balanced_iff.mpr hbody⟩

end Program

/-! ## What a builder knows of its loops -/

namespace Builder

open openStarts

variable {b : Builder}

/-- The starts of the open loops stand in the program, and the innermost is the last. -/
theorem lt_of_mem_starts {loops : List OpenLoop} {i : Nat} (h : i ∈ starts loops)
    (recent : List Instruction) : i < (unwind recent loops).length := by
  induction loops generalizing recent with
  | nil => cases h
  | cons l outer ih =>
    rw [unwind, List.length_append, List.length_cons]
    rcases List.mem_cons.mp h with rfl | h
    · omega
    · have hlt := ih h l.before
      omega

theorem pairwise_starts (loops : List OpenLoop) : (starts loops).Pairwise (· > ·) := by
  induction loops with
  | nil => exact .nil
  | cons l outer ih => exact .cons (fun i hi => lt_of_mem_starts hi l.before) ih

section

variable {recent : List Instruction} {loops : List OpenLoop}
  (hrecent : Balanced Instruction.weight recent.reverse)
  (hbefore : ∀ l ∈ loops, Balanced Instruction.weight l.before.reverse)

include hrecent hbefore

theorem inside_unwind : Inside Instruction.weight (unwind recent loops).reverse := by
  induction loops generalizing recent with
  | nil => exact hrecent.inside
  | cons l outer ih =>
    obtain ⟨hl, houter⟩ := List.forall_mem_cons.mp hbefore
    rw [reverse_unwind_cons]
    exact (ih hl houter).append (hrecent.inside.start rfl)

/-- **The starts that are kept are those of the loops without an end.** -/
theorem mem_starts_iff (i : Nat) :
    i ∈ starts loops ↔ Program.OpenAt (unwind recent loops).reverse i := by
  rw [Program.openAt_iff]
  induction loops generalizing recent with
  | nil =>
    simp only [starts, List.not_mem_nil, false_iff]
    rintro ⟨before, s, after, heq, -, hs, hafter⟩
    exact hrecent.not_hasOpen ⟨before, s, after, heq, hs, hafter⟩
  | cons l outer ih =>
    obtain ⟨hl, houter⟩ := List.forall_mem_cons.mp hbefore
    rw [starts, List.mem_cons, ih hl houter, reverse_unwind_cons]
    constructor
    · rintro (rfl | ⟨before, s, after, heq, hlength, hs, hafter⟩)
      · exact ⟨_, _, _, rfl, List.length_reverse, rfl, hrecent.inside⟩
      · exact ⟨before, s, after ++ .enter l.entry :: recent.reverse, by simp [heq], hlength, hs,
          hafter.append (hrecent.inside.start rfl)⟩
    · rintro ⟨before, s, after, heq, hlength, hs, hafter⟩
      rcases append_cons_cases heq with ⟨c, hc, rfl⟩ | ⟨rfl, -, -⟩ | ⟨c, -, hc⟩
      · refine .inr ⟨before, s, c, hc, hlength, hs, ?_⟩
        exact fun ys hys => hafter ys (hys.trans (List.prefix_append _ _))
      · exact .inl (by simpa using hlength.symm)
      · exact (hrecent.not_hasOpen ⟨c, s, after, hc, hs, hafter⟩).elim

end

/-- What a builder knows of its open loops. -/
structure IndexesLoops (b : Builder) : Prop where
  /-- The starts of the open loops stand in order, the outermost first. -/
  increasing : b.openStarts.reverse.Pairwise (· < ·)
  /-- They are the loop starts that have no end. -/
  open_iff : ∀ i, i ∈ b.openStarts.reverse ↔ b.instructions.OpenAt i
  /-- Every loop end has a start. -/
  matched : b.instructions.EndsMatched

theorem Nested.indexesLoops (h : b.Nested) : b.IndexesLoops := by
  have hbalanced {recent : List Instruction} (hnest : ∃ n : Nest, n.backwards = recent) :
      Balanced Instruction.weight recent.reverse := by
    obtain ⟨n, rfl⟩ := hnest
    exact Program.balanced_iff.mp ⟨n, (List.reverse_reverse _).symm⟩
  have hrecent := hbalanced h.recent
  have hbefore : ∀ l ∈ b.loops, Balanced Instruction.weight l.before.reverse :=
    fun l hl => hbalanced (h.before l hl)
  refine ⟨?_, ?_, ?_⟩
  · rw [List.pairwise_reverse]
    exact pairwise_starts b.loops
  · intro i
    rw [List.mem_reverse]
    exact mem_starts_iff hrecent hbefore i
  · exact Program.endsMatched_of_inside (inside_unwind hrecent hbefore)

/-! ## Any requests -/

/-- Every request leaves a tidy builder. -/
theorem Tidy.serve (h : b.Tidy) (r : Request) : (b.serve r).2.Tidy := by
  cases hb : b.finalized with
  | true => rwa [serve_of_finalized hb]
  | false =>
    have hserves := b.serves hb r
    generalize b.serve r = served at hserves
    cases hserves with
    | act e => exact h.call hb (call_act (a := .exact) hb e)
    | move distance => exact h.call hb (call_move (a := .exact) hb distance)
    | startLoop => exact h.call hb (call_startLoop (a := .exact) hb)
    | closed _ hend => exact h.endLoop hb hend
    | finalize hloops =>
      refine ⟨⟨⟨.done, rfl⟩, by simp [hloops]⟩, ?_⟩
      rw [hloops]
      exact trivial
    | unmatched _ => exact h
    | unclosed _ => exact h

theorem Tidy.after (h : b.Tidy) (requests : List Request) : (b.after requests).Tidy := by
  induction requests generalizing b with
  | nil => exact h
  | cons r rest ih => exact ih (h.serve r)

/-- **A request that is refused changes nothing**, and none is refused for want of instructions. -/
theorem serve_error {r : Request} {e : BuildError} (h : (b.serve r).1 = .error e) :
    (b.serve r).2 = b ∧ e ≠ .emptyPop := by
  cases hb : b.finalized with
  | true =>
    rw [serve_of_finalized hb] at h ⊢
    cases h
    exact ⟨rfl, nofun⟩
  | false =>
    have hserves := b.serves hb r
    generalize b.serve r = served at hserves h
    cases hserves with
    | act e => cases h
    | move distance => cases h
    | startLoop => cases h
    | closed _ hend => cases h
    | finalize _ => cases h
    | unmatched _ =>
      cases h
      exact ⟨rfl, nofun⟩
    | unclosed _ =>
      cases h
      exact ⟨rfl, nofun⟩

/-! ## Counting requests -/

/-- One if a request is the one that is wanted and is not refused. -/
def takes (b : Builder) (wanted r : Request) : Nat :=
  if r = wanted ∧ (b.serve r).1.isOk then 1 else 0

/-- How many of some requests are the one that is wanted and are not refused. -/
def taken (b : Builder) (wanted : Request) : List Request → Nat
  | [] => 0
  | r :: rest => b.takes wanted r + (b.serve r).2.taken wanted rest

/-- What a request does to the number of open loops. -/
theorem loops_serve (b : Builder) (r : Request) :
    (b.serve r).2.loops.length + b.takes (.command .endLoop) r =
      b.loops.length + b.takes (.command .startLoop) r := by
  unfold takes
  cases hb : b.finalized with
  | true => simp [serve_of_finalized hb, Except.isOk, Except.toBool]
  | false =>
    have hserves := b.serves hb r
    generalize b.serve r = served at hserves
    cases hserves with
    | act e => simp
    | move distance => simp
    | startLoop => simp [Except.isOk, Except.toBool]
    | closed h hend =>
      obtain ⟨fate', b'', hend', houter, -⟩ := exists_endLoop hb h
      cases hend.symm.trans hend'
      simp [Except.isOk, Except.toBool, h, houter]
    | finalize h => simp
    | unmatched h => simp [Except.isOk, Except.toBool]
    | unclosed h => simp

/-- **The open loops are those that were started and not ended.** -/
theorem loops_after (b : Builder) (requests : List Request) :
    (b.after requests).loops.length + b.taken (.command .endLoop) requests =
      b.loops.length + b.taken (.command .startLoop) requests := by
  induction requests generalizing b with
  | nil => rfl
  | cons r rest ih =>
    have hstep := b.loops_serve r
    have hrest := ih (b.serve r).2
    rw [taken, taken]
    change ((b.serve r).2.after rest).loops.length + _ = _
    omega

theorem finalized_serve (b : Builder) (r : Request) :
    (b.serve r).2.finalized = true ↔ b.finalized = true ∨ 0 < b.takes .finalize r := by
  unfold takes
  cases hb : b.finalized with
  | true => simp [serve_of_finalized hb, hb]
  | false =>
    have hserves := b.serves hb r
    generalize b.serve r = served at hserves
    cases hserves with
    | act e => simp [hb]
    | move distance => simp [hb]
    | startLoop => simp [hb]
    | closed h hend =>
      obtain ⟨fate', b'', hend', -, hopen, -⟩ := exists_endLoop hb h
      cases hend.symm.trans hend'
      simp [hopen]
    | finalize h => simp [Except.isOk, Except.toBool]
    | unmatched h => simp [hb]
    | unclosed h => simp [hb, Except.isOk, Except.toBool]

/-- A builder is finalized from the request on that hands its program over. -/
theorem finalized_after (b : Builder) (requests : List Request) :
    (b.after requests).finalized = true ↔ b.finalized = true ∨ 0 < b.taken .finalize requests := by
  induction requests generalizing b with
  | nil => simp [after, taken]
  | cons r rest ih =>
    rw [taken, Nat.add_pos_iff_pos_or_pos, ← or_assoc, ← finalized_serve]
    exact ih (b.serve r).2

/-- A loop end is refused exactly if no loop is open. -/
theorem serve_endLoop_eq_unmatched_iff (hb : b.finalized = false) :
    (b.serve (.command .endLoop)).1 = .error .unmatchedLoopEnd ↔ b.loops = [] := by
  have hserves := b.serves hb (.command .endLoop)
  generalize b.serve (.command .endLoop) = served at hserves
  cases hserves with
  | unmatched h => simp [h]
  | closed h _ => simp [h]

/-- A program is handed over exactly if no loop is open, and only once. -/
theorem serve_finalize_eq_ok_iff {a : Answer} :
    (b.serve .finalize).1 = .ok a ↔
      (b.loops = [] ∧ b.finalized = false) ∧ a = .program b.instructions := by
  cases hb : b.finalized with
  | true => simp [serve_of_finalized hb]
  | false =>
    have hserves := b.serves hb .finalize
    generalize b.serve .finalize = served at hserves
    cases hserves with
    | finalize h => simp [h, eq_comm]
    | unclosed h => simp [h]

/-- **A builder knows its open loops**, whatever it has been asked for and refused.

Until it hands its program over, the indices that it keeps increase strictly and are those of the
loop starts without an end, and no loop end is unmatched. It refuses a loop end as unmatched exactly
if as many loops have been ended as started; it hands its program over exactly if this is so and it
has not done so before, the program is balanced, and from then on it refuses everything. A request
that is refused leaves it as it was, and none is refused for want of an instruction to drop. The
builder that keeps one list and a stack of indices gives the same answers and never comes to an
index out of range.

Moves are by any distance, so this is said of offsets that wrap as well (`exists_after_eq`). -/
theorem indexes_open_loops (passes : Passes) (requests : List Request) :
    let start : Builder := { passes }
    let b := start.after requests
    let started := start.taken (.command .startLoop) requests
    let ended := start.taken (.command .endLoop) requests
    (b.finalized = false → b.IndexesLoops) ∧
      (b.finalized = false →
        ((b.serve (.command .endLoop)).1 = .error .unmatchedLoopEnd ↔ ended = started)) ∧
      ((∃ a, (b.serve .finalize).1 = .ok a) ↔ ended = started ∧ b.finalized = false) ∧
      (∀ a, (b.serve .finalize).1 = .ok a → a = .program b.instructions ∧
        b.instructions.Balanced) ∧
      (b.finalized = true ↔ 0 < start.taken .finalize requests) ∧
      (b.finalized = true → ∀ r, (b.serve r).1 = .error .alreadyFinalized) ∧
      (∀ r e, (b.serve r).1 = .error e → (b.serve r).2 = b ∧ e ≠ .emptyPop) ∧
      ({ passes } : FlatBuilder).after? requests = some b.flat ∧
      ∀ r, (FlatBuilder.serve r).run b.flat = FlatBuilder.reply (b.serve r) := by
  intro start b started ended
  have hnested : b.Nested := ((Tidy.start passes).after requests).nested
  have hcount : b.loops = [] ↔ ended = started := by
    have hloops : b.loops.length + ended = 0 + started := start.loops_after requests
    rw [← List.length_eq_zero_iff]
    omega
  have hfinalized : b.finalized = true ↔ 0 < start.taken .finalize requests := by
    rw [finalized_after]
    exact or_iff_right Bool.false_ne_true
  refine ⟨fun _ => hnested.indexesLoops, ?_, ?_, ?_, hfinalized, ?_, fun _ _ => serve_error,
    FlatBuilder.after?_flat start requests, FlatBuilder.serve_flat b⟩
  · intro hb
    rw [serve_endLoop_eq_unmatched_iff hb, hcount]
  · simp only [serve_finalize_eq_ok_iff, exists_and_left, exists_eq, and_true, hcount]
  · intro a ha
    obtain ⟨⟨hloops, -⟩, rfl⟩ := serve_finalize_eq_ok_iff.mp ha
    exact ⟨rfl, hnested.balanced hloops⟩
  · intro hb r
    rw [serve_of_finalized hb]

/-- A loop that is dropped, a loop end that is refused, two open loops and a program that is not
handed over. -/
theorem indexes_open_loops_of_refusals :
    let b := ({ passes := .all } : Builder).after
      [.command .startLoop, .command .endLoop, .command .endLoop, .command (.act (.change 1)),
        .command .startLoop, .command (.act (.change (-1))), .command .startLoop, .finalize]
    b.finalized = false ∧ b.openStarts.reverse = [1, 3] ∧ b.IndexesLoops :=
  ⟨rfl, rfl, (indexes_open_loops _ _).1 rfl⟩

end Builder

end Tapecode
