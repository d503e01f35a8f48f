import Mathlib.Data.List.DropRight
import Tapecode.Proofs.OpenLoops

/-!
# What an open loop protects

Rewrites take instructions away from the end of a program, but none reaches the start of an open
loop. From when a loop is started until it is closed, its start and all that stands before it stay
as they are, whatever is asked of the builder meanwhile.

* The open loops of a builder are a stack. A request takes at most the innermost off it, so a loop
  that no request closes stays on the stack with the loops around it (`Builder.suffix_serve`,
  `Builder.suffix_after`).
* The stack tells what the program begins with (`Builder.exists_instructions_of_suffix`).
* What becomes of a loop that is closed is said in terms of the program up to its start
  (`LoopFate.Leaves`, `Builder.exists_endLoop_leaves`).

So a loop that is closed at last is judged by what stood before it when it was started
(`Builder.open_loop_protects`).
-/

namespace Tapecode

/-- A set or an input comes behind what it does not overwrite. -/
theorem Passes.reverse_emitStore (passes : Passes) (e : Effect) (o : Int) (p : Program) :
    (passes.emitStore e o p.reverse).reverse =
      (if passes.deadStores then p.rdropWhile (·.writesAt o) else p) ++ [.act e o] := by
  cases hd : passes.deadStores with
  | false => simp [emitStore, hd]
  | true => simp [emitStore, hd, List.rdropWhile]

/-- What is left of the program `p` when the loop is closed that starts at index `i` with the offset
`entry`: the program after it, and the offset.

A loop that is kept leaves all up to its start. One that is dropped leaves what stands before it.
One that is turned into a set leaves what stands before it, without the writes of the same cell at
the end if dead stores are dropped, and then the set. -/
def LoopFate.Leaves (passes : Passes) (p : Program) (i : Nat) (entry : Int) :
    LoopFate → Program → Int → Prop
  | .kept, q, offset => q.take (i + 1) = p.take (i + 1) ∧ offset = 0
  | .removed, q, offset => q = p.take i ∧ offset = entry
  | .cleared, q, offset =>
    q = (if passes.deadStores then (p.take i).rdropWhile (·.writesAt entry) else p.take i) ++
        [.act (.set 0) entry] ∧
      offset = entry

/-- Nothing behind the start of the loop has a part in what is left. -/
theorem LoopFate.Leaves.congr {passes : Passes} {p p' q : Program} {i : Nat} {entry offset : Int}
    {fate : LoopFate} (h : fate.Leaves passes p i entry q offset)
    (hsucc : p.take (i + 1) = p'.take (i + 1)) : fate.Leaves passes p' i entry q offset := by
  have htake : p.take i = p'.take i := by
    simpa [List.take_take] using congrArg (List.take i) hsucc
  cases fate with
  | kept => exact ⟨h.1.trans hsucc, h.2⟩
  | removed => exact ⟨h.1.trans htake, h.2⟩
  | cleared => exact ⟨htake ▸ h.1, h.2⟩

namespace Builder

open openStarts

variable {b : Builder} {l : OpenLoop} {outer : List OpenLoop}

/-! ## The stack of open loops -/

/-- An index at which an open loop starts is the length of what was written before that loop. -/
theorem exists_suffix_of_mem_starts {loops : List OpenLoop} {i : Nat} (h : i ∈ starts loops) :
    ∃ l outer, l :: outer <:+ loops ∧ i = (unwind l.before outer).length := by
  induction loops with
  | nil => cases h
  | cons l outer ih =>
    rcases List.mem_cons.mp h with rfl | h
    · exact ⟨l, outer, List.suffix_rfl, rfl⟩
    · obtain ⟨l', outer', hsuffix, hi⟩ := ih h
      exact ⟨l', outer', hsuffix.trans (List.suffix_cons l outer), hi⟩

theorem mem_starts_of_suffix {loops : List OpenLoop} (h : l :: outer <:+ loops) :
    (unwind l.before outer).length ∈ starts loops := by
  obtain ⟨inner, rfl⟩ := h
  induction inner with
  | nil => exact List.mem_cons_self
  | cons l' inner ih => exact List.mem_cons_of_mem _ ih

theorem exists_unwind_append (recent : List Instruction) (inner : List OpenLoop) (l : OpenLoop)
    (outer : List OpenLoop) :
    ∃ body, unwind recent (inner ++ l :: outer) =
      body ++ .enter l.entry :: unwind l.before outer := by
  induction inner generalizing recent with
  | nil => exact ⟨recent, rfl⟩
  | cons l' inner ih =>
    obtain ⟨body, hbody⟩ := ih l'.before
    refine ⟨recent ++ .enter l'.entry :: body, ?_⟩
    rw [List.cons_append, unwind, hbody, List.append_assoc, List.cons_append]

/-- **What was written before an open loop is what the program begins with.** -/
theorem exists_instructions_of_suffix (h : l :: outer <:+ b.loops) :
    ∃ body, b.instructions = (unwind l.before outer).reverse ++ .enter l.entry :: body := by
  obtain ⟨inner, hinner⟩ := h
  obtain ⟨body, hbody⟩ := exists_unwind_append b.recent inner l outer
  exact ⟨body.reverse, by simp [instructions, ← hinner, hbody]⟩

theorem take_instructions_of_suffix (h : l :: outer <:+ b.loops) :
    b.instructions.take (unwind l.before outer).length = (unwind l.before outer).reverse := by
  obtain ⟨body, hbody⟩ := exists_instructions_of_suffix h
  rw [hbody]
  exact List.take_left' List.length_reverse

theorem take_succ_instructions_of_suffix (h : l :: outer <:+ b.loops) :
    b.instructions.take ((unwind l.before outer).length + 1) =
      (unwind l.before outer).reverse ++ [.enter l.entry] := by
  obtain ⟨body, hbody⟩ := exists_instructions_of_suffix h
  rw [hbody, List.append_cons]
  exact List.take_left' (by simp)

theorem instructions_getElem?_of_suffix (h : l :: outer <:+ b.loops) :
    b.instructions[(unwind l.before outer).length]? = some (.enter l.entry) := by
  obtain ⟨body, hbody⟩ := exists_instructions_of_suffix h
  simp [hbody]

/-! ## Requests that do not close a loop -/

/-- Whether a request closes the loop that starts at index `i`: it ends a loop, and the innermost
open loop is this one. -/
def closes (b : Builder) (i : Nat) (r : Request) : Bool :=
  r == .command .endLoop && b.openStarts.head? == some i

/-- Whether one of some requests closes the loop that starts at index `i`. -/
def closesAny (b : Builder) (i : Nat) : List Request → Bool
  | [] => false
  | r :: rest => b.closes i r || (b.serve r).2.closesAny i rest

/-- A loop end closes a loop exactly if no other has been started in it and is open. -/
theorem closes_endLoop_iff (h : l :: outer <:+ b.loops) :
    b.closes (unwind l.before outer).length (.command .endLoop) = true ↔
      b.loops = l :: outer := by
  simp only [closes, beq_self_eq_true, Bool.true_and, beq_iff_eq, openStarts]
  constructor
  · intro hhead
    rcases hloops : b.loops with _ | ⟨l', outer'⟩
    · simp [hloops] at h
    rw [hloops] at h hhead
    rcases List.suffix_cons_iff.mp h with heq | hinner
    · exact heq.symm
    · -- a loop further out starts before the innermost
      have hlt := lt_of_mem_starts (mem_starts_of_suffix hinner) l'.before
      have heq : (unwind l'.before outer').length = (unwind l.before outer).length :=
        Option.some.inj hhead
      omega
  · intro hloops
    rw [hloops]
    rfl

/-- **A loop stays open with those around it**, unless a request closes it. -/
theorem suffix_serve {r : Request} (h : l :: outer <:+ b.loops)
    (hr : b.closes (unwind l.before outer).length r = false) :
    l :: outer <:+ (b.serve r).2.loops := by
  cases hb : b.finalized with
  | true => rwa [serve_of_finalized hb]
  | false =>
    have hserves := b.serves hb r
    generalize b.serve r = served at hserves
    cases hserves with
    | act e => exact h
    | move distance => exact h
    | startLoop => exact h.trans (List.suffix_cons _ _)
    | unmatched _ => exact h
    | closed hloops hend =>
      obtain ⟨fate', b'', hend', houter, -⟩ := exists_endLoop hb hloops
      cases hend.symm.trans hend'
      rcases List.suffix_cons_iff.mp (hloops ▸ h) with heq | hinner
      · rw [(closes_endLoop_iff h).mpr (hloops.trans heq.symm)] at hr
        cases hr
      · rwa [houter]
    | finalize _ => exact h
    | unclosed _ => exact h

theorem suffix_after {requests : List Request} (h : l :: outer <:+ b.loops)
    (hspared : b.closesAny (unwind l.before outer).length requests = false) :
    l :: outer <:+ (b.after requests).loops := by
  induction requests generalizing b with
  | nil => exact h
  | cons r rest ih =>
    obtain ⟨hr, hrest⟩ := Bool.or_eq_false_iff.mp hspared
    exact ih (suffix_serve h hr) hrest

/-! ## The request that closes a loop -/

/-- A builder with these passes, which has no open loops if it has handed its program over. -/
structure Steady (passes : Passes) (b : Builder) : Prop where
  passes_eq : b.passes = passes
  loops_eq : b.finalized = true → b.loops = []

theorem Steady.start (passes : Passes) : ({ passes } : Builder).Steady passes :=
  ⟨rfl, fun h => absurd h Bool.false_ne_true⟩

theorem Steady.serve {passes : Passes} (h : b.Steady passes) (r : Request) :
    (b.serve r).2.Steady passes := by
  cases hb : b.finalized with
  | true => rwa [serve_of_finalized hb]
  | false =>
    have hserves := b.serves hb r
    generalize b.serve r = served at hserves
    cases hserves with
    | act e => exact ⟨h.passes_eq, h.loops_eq⟩
    | move distance => exact ⟨h.passes_eq, h.loops_eq⟩
    | startLoop => exact ⟨h.passes_eq, by simp [hb]⟩
    | unmatched _ => exact h
    | closed hloops hend =>
      obtain ⟨fate', b'', hend', -, hopen, hpasses⟩ := exists_endLoop hb hloops
      cases hend.symm.trans hend'
      exact ⟨hpasses.trans h.passes_eq, by simp [hopen]⟩
    | finalize hloops => exact ⟨h.passes_eq, fun _ => hloops⟩
    | unclosed _ => exact h

theorem Steady.after {passes : Passes} (h : b.Steady passes) (requests : List Request) :
    (b.after requests).Steady passes := by
  induction requests generalizing b with
  | nil => exact h
  | cons r rest ih => exact ih (h.serve r)

/-- **What becomes of the innermost loop when it is closed**, and that it is dropped exactly if what
stands before it leaves its cell zero. -/
theorem exists_endLoop_leaves (hb : b.finalized = false) (h : b.loops = l :: outer) :
    ∃ fate b', b.serve (.command .endLoop) = (.ok (.closed fate), b') ∧ b'.loops = outer ∧
      (fate = .removed ↔
        b.passes.deadLoops = true ∧ Passes.zeroLast l.entry (unwind l.before outer) = true) ∧
      fate.Leaves b.passes b.instructions (unwind l.before outer).length l.entry b'.instructions
        b'.offset := by
  have hsuffix : l :: outer <:+ b.loops := h ▸ List.suffix_rfl
  have htake := take_instructions_of_suffix hsuffix
  have hserve {fate : LoopFate} {b' : Builder} (hend : b.endLoop = (.ok fate, b')) :
      b.serve (.command .endLoop) = (.ok (.closed fate), b') := by
    rw [serve, hend]
    rfl
  rw [← isDead_eq, ← Bool.and_eq_true_iff]
  rcases endLoop_cases hb h with ⟨hdead, hend⟩ | ⟨hdead, -, hend⟩ | ⟨hdead, -, hend⟩
  · exact ⟨_, _, hserve hend, rfl, by simp [hdead], htake.symm, rfl⟩
  · refine ⟨_, _, hserve hend, rfl, by simp [hdead], ?_, rfl⟩
    -- the set drops writes back to the next loop start only, as it would in the whole program
    rw [htake, ← Passes.reverse_emitStore, List.reverse_reverse]
    exact congrArg List.reverse (emit_unwind b.passes (.set 0) l.entry l.before outer).symm
  · refine ⟨_, _, hserve hend, rfl, by simp [hdead], ?_, rfl⟩
    rw [instructions, unwind_leave, List.reverse_cons, ← h]
    have hlt := lt_of_mem_starts (mem_starts_of_suffix hsuffix) b.recent
    exact List.take_append_of_le_length (hlt.trans_eq List.length_reverse.symm)

/-- **An open loop protects all up to its start.**

Whatever a new builder has been asked for, let a loop be open that starts at index `i`. Requests of
which none closes it, refused or not, leave it open there, and leave the instructions up to its
start as they are. When it is closed at last, which is not refused, it is dropped exactly if dead
loops are and what stood before it leaves its cell zero. If it is kept, the instructions up to its
start are still the same and the offset is zero. If it is dropped, exactly those before its start
are left, and if it is turned into a set, those before its start, less the writes of its cell at
their end if dead stores are dropped, and the set; in both cases the offset is the one at which the
loop was entered. The builder that keeps one list and a stack of indices comes to the same list,
stack and offset.

Moves are by any distance, so this is said of offsets that wrap as well (`exists_after_eq`). -/
theorem open_loop_protects (passes : Passes) (history requests : List Request) (i : Nat) :
    let b := ({ passes } : Builder).after history
    let b' := b.after requests
    i ∈ b.openStarts → b.closesAny i requests = false →
      i ∈ b'.openStarts ∧ b'.instructions.take (i + 1) = b.instructions.take (i + 1) ∧
        ({ passes } : FlatBuilder).after? (history ++ requests) = some b'.flat ∧
        (b'.closes i (.command .endLoop) = true →
          ∃ entry fate b'', b.instructions[i]? = some (.enter entry) ∧
            b'.serve (.command .endLoop) = (.ok (.closed fate), b'') ∧ i ∉ b''.openStarts ∧
            (fate = .removed ↔ passes.deadLoops = true ∧
              Passes.zeroLast entry (b.instructions.take i).reverse = true) ∧
            fate.Leaves passes b.instructions i entry b''.instructions b''.offset ∧
            (FlatBuilder.serve (.command .endLoop)).run b'.flat = .ok (.closed fate) b''.flat) := by
  intro b b' hi hspared
  obtain ⟨l, outer, hb, rfl⟩ := exists_suffix_of_mem_starts hi
  have hb' : l :: outer <:+ b'.loops := suffix_after hb hspared
  have hsucc : b'.instructions.take ((unwind l.before outer).length + 1) = b.instructions.take _ :=
    (take_succ_instructions_of_suffix hb').trans (take_succ_instructions_of_suffix hb).symm
  refine ⟨mem_starts_of_suffix hb', hsucc, ?_, ?_⟩
  · have hflat := FlatBuilder.after?_flat { passes } (history ++ requests)
    rwa [after, List.foldl_append] at hflat
  · intro hcloses
    have hloops : b'.loops = l :: outer := (closes_endLoop_iff hb').mp hcloses
    have hsteady : b'.Steady passes := ((Steady.start passes).after history).after requests
    have hopen : b'.finalized = false := by
      rw [Bool.eq_false_iff]
      intro hfinalized
      rw [hsteady.loops_eq hfinalized] at hloops
      cases hloops
    obtain ⟨fate, b'', hserve, houter, hremoved, hleaves⟩ := exists_endLoop_leaves hopen hloops
    rw [hsteady.passes_eq] at hremoved hleaves
    refine ⟨l.entry, fate, b'', instructions_getElem?_of_suffix hb, hserve, ?_, ?_, ?_, ?_⟩
    · rw [openStarts, houter]
      intro hmem
      exact (lt_of_mem_starts hmem l.before).false
    · rwa [take_instructions_of_suffix hb, List.reverse_reverse]
    · exact hleaves.congr hsucc
    · rw [FlatBuilder.serve_flat, hserve]
      rfl

/-- A loop behind two writes of its cell. If one loop in it is turned into a set, the program is
asked for in vain, another loop is dropped and an input overwrites the set, it is kept. If it counts
its cell to zero, a set takes its place and that of the writes. -/
theorem open_loop_protects_of_writes :
    let b := ({ passes := { combineChanges := false } } : Builder).after
      [.command (.act .output), .command (.move 1), .command (.act (.set 5)),
        .command (.act (.change 3)), .command .startLoop]
    let inner := [.command .startLoop, .command (.act (.change (-1))), .command .endLoop, .finalize,
      .command .startLoop, .command .endLoop, .command (.act .input), .command (.move 1)]
    let countdown := [.command (.act (.change (-1))), .finalize]
    3 ∈ b.openStarts ∧ b.closesAny 3 inner = false ∧ b.closesAny 3 countdown = false ∧
      (b.after inner).instructions.take 4 = b.instructions.take 4 ∧
      (∃ b', (b.after inner).serve (.command .endLoop) = (.ok (.closed .kept), b') ∧
        b'.instructions.take 4 = b.instructions.take 4 ∧ b'.offset = 0) ∧
      ∃ b', (b.after countdown).serve (.command .endLoop) = (.ok (.closed .cleared), b') ∧
        b'.instructions = [.act .output 0, .act (.set 0) 1] ∧ b'.offset = 1 := by
  intro b inner countdown
  have hopen : 3 ∈ b.openStarts := by decide
  have hinner : b.closesAny 3 inner = false := by decide
  have hcountdown : b.closesAny 3 countdown = false := by decide
  obtain ⟨-, htake, -, hkept⟩ := open_loop_protects _ _ inner 3 hopen hinner
  obtain ⟨-, -, -, hcleared⟩ := open_loop_protects _ _ countdown 3 hopen hcountdown
  obtain ⟨entry, fate, b', -, hserve, -, -, hleaves, -⟩ := hkept (by decide)
  obtain ⟨entry', fate', b'', hentry, hserve', -, -, hleaves', -⟩ := hcleared (by decide)
  obtain rfl : fate = .kept := by cases hserve; rfl
  obtain rfl : fate' = .cleared := by cases hserve'; rfl
  obtain rfl : entry' = 1 := by cases hentry; rfl
  exact ⟨hopen, hinner, hcountdown, htake, ⟨b', hserve, hleaves⟩, b'', hserve', hleaves'⟩

end Builder

end Tapecode
