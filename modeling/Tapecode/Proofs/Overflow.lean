import Tapecode.Proofs.FlatBuilder
import Tapecode.Proofs.Parsing

/-!
# Offsets beyond 64 bits

A builder adds offsets without asking whether the sum fits. The theory of builders is about exact
sums, but for what it says about building and then optimising, which is proved of both. This module
says what it tells about sums that wrap.

* What a builder does with a wrapped sum, it does with an exact sum of other numbers: a wrapped move
  is an exact move by another distance (`Builder.exists_after_eq`), and replaying a program with sums
  that wrap is replaying the same program at other offsets without (`Program.exists_optimize_eq`). So
  what is proved of all requests, or of a program at any offsets, holds of wrapped sums as well.
* Offsets grow by what is added to them. No sum wraps in a program whose offsets add up to less than
  `2 ^ 63` (`Program.optimize_of_reach_le`), nor in a source text shorter than that
  (`parse_of_length_le`), and no longer one can be held.
-/

namespace Tapecode

/-! ## Wrapped sums as exact ones -/

/-- An instruction at another offset. -/
def Instruction.withOffset (o : Int) : Instruction → Instruction
  | .act e _ => .act e o
  | .enter _ => .enter o
  | .leave _ => .leave o

/-- A request with the distance of a move taken out. -/
def Builder.Request.still : Builder.Request → Builder.Request
  | .command (.move _) => .command (.move 0)
  | r => r

namespace Builder

/-- **What a builder does with a request in some arithmetic, it does with an exact one**: with the
same request, or with a move by another distance. -/
theorem exists_serve_eq (a : Arithmetic) (b : Builder) (r : Request) :
    ∃ r' : Request, r'.still = r.still ∧ b.serve r a = b.serve r' := by
  cases r with
  | finalize => exact ⟨.finalize, rfl, rfl⟩
  | command c =>
    cases c with
    | act e => exact ⟨.command (.act e), rfl, by cases e <;> rfl⟩
    | move distance =>
      refine ⟨.command (.move (a.add b.offset distance - b.offset)), rfl, ?_⟩
      simp only [serve, call, move, Arithmetic.exact_add, Int.add_comm b.offset, Int.sub_add_cancel]
    | startLoop => exact ⟨.command .startLoop, rfl, rfl⟩
    | endLoop => exact ⟨.command .endLoop, rfl, rfl⟩

/-- The builders that requests come to in some arithmetic are those that the same requests with
moves by other distances come to in the exact one. -/
theorem exists_after_eq (a : Arithmetic) (b : Builder) (requests : List Request) :
    ∃ requests' : List Request, requests'.map (·.still) = requests.map (·.still) ∧
      b.after requests a = b.after requests' := by
  induction requests generalizing b with
  | nil => exact ⟨[], rfl, rfl⟩
  | cons r rest ih =>
    obtain ⟨r', hstill, hserve⟩ := b.exists_serve_eq a r
    obtain ⟨rest', hmap, hrest⟩ := ih (b.serve r').2
    refine ⟨r' :: rest', by rw [List.map_cons, List.map_cons, hstill, hmap], ?_⟩
    rw [after, List.foldl_cons, hserve]
    exact hrest

theorem replay_withOffset (a : Arithmetic) (b : Builder) (base : Int) (i : Instruction) :
    b.replay base i a = b.replay base (i.withOffset (a.add base i.offset - base)) := by
  cases i <;>
    simp only [replay, Instruction.withOffset, Instruction.offset, Arithmetic.exact_add,
      Int.add_comm base, Int.sub_add_cancel]

theorem exists_replayAll_eq (a : Arithmetic) (b : Builder) (base : Int) (p : Program) :
    ∃ p' : Program, p'.map (·.withOffset 0) = p.map (·.withOffset 0) ∧
      b.replayAll base p a = b.replayAll base p' := by
  induction p generalizing b base with
  | nil => exact ⟨[], rfl, rfl⟩
  | cons i rest ih =>
    have hshape (o : Int) : (i.withOffset o).withOffset 0 = i.withOffset 0 := by
      cases i <;> rfl
    rcases hi : b.replay base i a with ⟨e | base', b'⟩
    all_goals
      rw [replayAll, hi]
      rw [replay_withOffset] at hi
    · refine ⟨i.withOffset (a.add base i.offset - base) :: rest, ?_, ?_⟩
      · rw [List.map_cons, List.map_cons, hshape]
      · rw [replayAll, hi]
    · obtain ⟨rest', hmap, hrest⟩ := ih b' base'
      refine ⟨i.withOffset (a.add base i.offset - base) :: rest', ?_, ?_⟩
      · rw [List.map_cons, List.map_cons, hshape, hmap]
      · rw [replayAll, hi]
        exact hrest

end Builder

/-- **Optimising a program in some arithmetic is optimising it exactly at other offsets.** -/
theorem Program.exists_optimize_eq (a : Arithmetic) (passes : Passes) (p : Program) :
    ∃ p' : Program, p'.map (·.withOffset 0) = p.map (·.withOffset 0) ∧
      p.optimize passes a = p'.optimize passes :=
  Builder.exists_replayAll_eq a { passes } 0 p

/-! ## Sums that fit -/

/-- How far the pointer can come with the offsets of a program. -/
def Program.reach : Program → Nat
  | [] => 0
  | i :: rest => i.offset.natAbs + reach rest

/-- A sum fits if it is not greater than the greatest word, whatever its sign. -/
theorem Arithmetic.add_of_natAbs_le (a : Arithmetic) {m n : Int}
    (h : ((m + n).natAbs : Int) ≤ Word.greatest) : a.add m n = m + n := by
  rw [Word.greatest] at h
  refine a.add_of_fits ?_ ?_
  · change (-9223372036854775808 : Int) ≤ m + n
    omega
  · rw [Word.greatest]
    omega

namespace Builder

variable {a : Arithmetic} {b b' : Builder}

/-- A replay makes no new offset but the sum of the base and the offset that it replays. -/
theorem Offsets.replay {P : Int → Prop} {base base' : Int} {i : Instruction}
    (h : { b with offset := base }.Offsets P) (hzero : P 0) (hb : b.finalized = false)
    (hsum : P (a.add base i.offset)) (hreplay : b.replay base i a = (.ok base', b')) :
    { b' with offset := base' }.Offsets P ∧ b'.finalized = false := by
  cases i with
  | act e o =>
    rw [replay_act hb] at hreplay
    cases hreplay
    exact ⟨⟨h.offset, h.entries⟩, hb⟩
  | enter o =>
    rw [replay_enter hb] at hreplay
    cases hreplay
    exact ⟨⟨hzero, List.forall_mem_cons.mpr ⟨hsum, h.entries⟩⟩, hb⟩
  | leave o =>
    rcases hloops : b.loops with _ | ⟨l, outer⟩
    · simp [Builder.replay, Builder.endLoop, hb, hloops, Except.map] at hreplay
    · obtain ⟨fate, b'', hend, -, hfin, -⟩ :=
        exists_endLoop (b := { b with offset := a.add base o }) hb hloops
      rw [replay_leave hend] at hreplay
      cases hreplay
      exact ⟨.endLoop (b := { b with offset := a.add base o }) h.entries hzero hb hend, hfin⟩

/-- **Replaying offsets that cannot add up to more than a word** is replaying them exactly. The base
and the offsets of the open loops are at most the sum of what has been replayed. -/
theorem replayAll_of_reach_le {n : Nat} {base : Int} {p : Program}
    (h : { b with offset := base }.Offsets (·.natAbs ≤ n)) (hb : b.finalized = false)
    (hp : ((n + p.reach : Nat) : Int) ≤ Word.greatest) :
    b.replayAll base p a = b.replayAll base p := by
  induction p generalizing b base n with
  | nil => rfl
  | cons i rest ih =>
    have hbase : base.natAbs ≤ n := h.offset
    have hreach : Program.reach (i :: rest) = i.offset.natAbs + Program.reach rest := rfl
    have hadd : a.add base i.offset = base + i.offset := a.add_of_natAbs_le (by omega)
    have hreplay : b.replay base i a = b.replay base i := by
      unfold Builder.replay
      rw [hadd, Arithmetic.exact_add]
    rw [replayAll, replayAll, hreplay]
    rcases hi : b.replay base i with ⟨e | base', b'⟩
    · rfl
    · have hmono : { b with offset := base }.Offsets (·.natAbs ≤ n + i.offset.natAbs) :=
        ⟨Nat.le_add_right_of_le hbase, fun l hl => Nat.le_add_right_of_le (h.entries l hl)⟩
      obtain ⟨h', hfin⟩ := hmono.replay (Nat.zero_le _) hb
        (by rw [Arithmetic.exact_add]; omega) hi
      exact ih h' hfin (by omega)

end Builder

/-- **Offsets that add up to less than `2 ^ 63` are never wrapped** by optimising. -/
theorem Program.optimize_of_reach_le (a : Arithmetic) (passes : Passes) {p : Program}
    (h : (p.reach : Int) ≤ Word.greatest) : p.optimize passes a = p.optimize passes :=
  Builder.replayAll_of_reach_le (n := 0) (.start (Nat.le_refl 0) passes) rfl
    (by rwa [Nat.zero_add])

/-! ## Source texts -/

/-- The rest of a parse that has come to offsets of at most `n`. -/
theorem Parse.Sound.run_of_length_le {a : Arithmetic} {p : Parse} (h : p.Sound) {n : Nat}
    (hn : p.builder.Offsets (·.natAbs ≤ n)) (position : Position) (bytes : List UInt8)
    (hbytes : ((n + bytes.length : Nat) : Int) ≤ Word.greatest) :
    p.run (tokenizeFrom position bytes) a = p.run (tokenizeFrom position bytes) := by
  induction bytes generalizing p n position with
  | nil => rfl
  | cons b rest ih =>
    rw [List.length_cons] at hbytes
    cases hb : Symbol.ofByte? b with
    | none =>
      simp only [tokenizeFrom, hb]
      exact ih h hn _ (by omega)
    | some s =>
      simp only [tokenizeFrom, hb, Parse.run]
      have hoffset : p.builder.offset.natAbs ≤ n := hn.offset
      -- a symbol moves the pointer by at most one cell
      have hstep : p.step s position a = p.step s position := by
        cases s with
        | left | right =>
          simp only [Parse.step, Builder.move, Arithmetic.exact_add]
          rw [a.add_of_natAbs_le (by omega)]
        | increment | decrement | input | output | loopStart | loopEnd => rfl
      rw [hstep]
      by_cases hs : s = .loopEnd → p.opened ≠ []
      · obtain ⟨p', hp', hcall, -, -, h'⟩ := h.step (a := .exact) position hs
        have hn' : p'.builder.Offsets (·.natAbs ≤ n + 1) := by
          refine Builder.Offsets.call (b := p.builder)
            ⟨Nat.le_add_right_of_le hoffset, fun l hl => Nat.le_add_right_of_le (hn.entries l hl)⟩
            (Nat.zero_le _) h.unfinished ?_ hcall
          intro distance hdistance
          have hone : distance.natAbs = 1 := by
            cases s <;> cases hdistance <;> rfl
          rw [Arithmetic.exact_add]
          omega
        simp only [hp']
        exact ih h' hn' _ (by omega)
      · obtain ⟨rfl, hopened⟩ : s = .loopEnd ∧ p.opened = [] := by simpa using hs
        simp only [Parse.step_loopEnd_of_opened_eq_nil position hopened]

/-- **A source text of less than `2 ^ 63` bytes parses the same in every arithmetic.** -/
theorem parse_of_length_le (a : Arithmetic) (passes : Passes) {source : List UInt8}
    (h : (source.length : Int) ≤ Word.greatest) : parse passes source a = parse passes source :=
  (Parse.Sound.start passes).run_of_length_le (n := 0) (.start (Nat.le_refl 0) passes) .start source
    (by rwa [Nat.zero_add])

end Tapecode
