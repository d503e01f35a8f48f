import Mathlib.Tactic.Common
import Tapecode.Bytecode

/-!
# Balanced programs

A program is balanced if it writes out a nest. `Nest.ofProgram?_eq_ok_iff` says that reading a
program finds a nest exactly if the program writes that nest out, so a program compiles exactly if
it is balanced (`Program.compile_eq_ok_iff`).

A builder keeps its instructions last first. `Nest.backwards` writes a nest out in this order, and
the inversion lemmas say which nest has a given instruction at its end.
-/

namespace Tapecode

/-- Every loop that is started is ended, and the other way round. -/
def Program.Balanced (p : Program) : Prop :=
  ∃ n : Nest, n.program = p

namespace Nest

theorem program_append (n k : Nest) : (n ++ k).program = n.program ++ k.program := by
  induction n with
  | done => rfl
  | act e o rest ih =>
    change Instruction.act e o :: (rest ++ k).program = _
    rw [ih]
    rfl
  | loop entry body exit rest _ ih =>
    change Instruction.enter entry :: (body.program ++ .leave exit :: (rest ++ k).program) = _
    rw [ih]
    simp [program]

/-! ## Reading and writing -/

/-- The instructions that have been read: the nest at their start, then each loop end without a
start and what follows it. -/
def Suffix.program (s : Suffix) : Program :=
  s.nest.program ++ s.ends.flatMap fun e => .leave e.1 :: e.2.program

/-- Reading loses nothing, as long as every loop start that is read has an end. -/
theorem foldr_extend_inv (p : Program) (h : (p.foldr Suffix.extend {}).unclosed = false) :
    (p.foldr Suffix.extend {}).program = p := by
  induction p with
  | nil => rfl
  | cons i rest ih =>
    rw [List.foldr_cons] at h ⊢
    generalize rest.foldr Suffix.extend {} = s at h ih ⊢
    cases i with
    | act e o =>
      rw [← ih h]
      rfl
    | leave o =>
      rw [← ih h]
      rfl
    | enter o =>
      rcases hends : s.ends with _ | ⟨⟨exit, after⟩, ends⟩
      · simp only [Suffix.extend, hends, reduceCtorEq] at h
      · simp only [Suffix.extend, hends] at h ⊢
        rw [← ih h]
        simp [Suffix.program, hends, program]

/-- **Reading finds the nest that a program writes out**, and only that one. -/
theorem ofProgram?_eq_ok_iff {p : Program} {n : Nest} : ofProgram? p = .ok n ↔ n.program = p := by
  constructor
  · intro h
    simp only [ofProgram?] at h
    split at h
    · cases h
    · cases h
    · rename_i hends hunclosed
      obtain rfl := Except.ok.inj h
      have hprogram := foldr_extend_inv p hunclosed
      rw [Suffix.program, hends, List.flatMap_nil, List.append_nil] at hprogram
      exact hprogram
  · rintro rfl
    exact ofProgram?_program n

theorem program_injective {n k : Nest} (h : n.program = k.program) : n = k := by
  have hn := ofProgram?_program n
  rw [h, ofProgram?_program k] at hn
  exact (Except.ok.inj hn).symm

/-! ## Last instruction first -/

/-- The instructions of a nest, last first. -/
def backwards (n : Nest) : List Instruction :=
  n.program.reverse

theorem backwards_act (e : Effect) (o : Int) (rest : Nest) :
    (act e o rest).backwards = rest.backwards ++ [.act e o] := by
  simp [backwards, program]

theorem backwards_loop (entry exit : Int) (body rest : Nest) :
    (loop entry body exit rest).backwards =
      rest.backwards ++ .leave exit :: (body.backwards ++ [.enter entry]) := by
  simp [backwards, program]

theorem backwards_append_act (n : Nest) (e : Effect) (o : Int) :
    (n ++ act e o done).backwards = .act e o :: n.backwards := by
  simp [backwards, program_append, program]

theorem backwards_append_loop (n body : Nest) (entry exit : Int) :
    (n ++ loop entry body exit done).backwards =
      .leave exit :: (body.backwards ++ .enter entry :: n.backwards) := by
  simp [backwards, program_append, program]

/-- A nest is empty, or ends with an effect, or ends with a loop. -/
theorem eq_done_or_append (n : Nest) :
    n = done ∨ (∃ q e o, n = q ++ act e o done) ∨
      ∃ q entry body exit, n = q ++ loop entry body exit done := by
  induction n with
  | done => exact .inl rfl
  | act e o rest ih =>
    rcases ih with rfl | ⟨q, e', o', rfl⟩ | ⟨q, entry, body, exit, rfl⟩
    · exact .inr (.inl ⟨done, e, o, rfl⟩)
    · exact .inr (.inl ⟨act e o q, e', o', rfl⟩)
    · exact .inr (.inr ⟨act e o q, entry, body, exit, rfl⟩)
  | loop a body' x rest _ ih =>
    rcases ih with rfl | ⟨q, e', o', rfl⟩ | ⟨q, entry, body, exit, rfl⟩
    · exact .inr (.inr ⟨done, a, body', x, rfl⟩)
    · exact .inr (.inl ⟨loop a body' x q, e', o', rfl⟩)
    · exact .inr (.inr ⟨loop a body' x q, entry, body, exit, rfl⟩)

theorem eq_done_of_backwards {n : Nest} (h : n.backwards = []) : n = done :=
  program_injective (List.reverse_eq_nil_iff.mp h)

theorem exists_of_backwards_act {n : Nest} {e : Effect} {o : Int} {older : List Instruction}
    (h : n.backwards = .act e o :: older) : ∃ q, n = q ++ act e o done ∧ q.backwards = older := by
  rcases n.eq_done_or_append with rfl | ⟨q, e', o', rfl⟩ | ⟨q, entry, body, exit, rfl⟩
  · cases h
  · rw [backwards_append_act] at h
    obtain ⟨⟨rfl, rfl⟩, rfl⟩ := h
    exact ⟨q, rfl, rfl⟩
  · rw [backwards_append_loop] at h
    cases h

theorem exists_of_backwards_leave {n : Nest} {exit : Int} {older : List Instruction}
    (h : n.backwards = .leave exit :: older) :
    ∃ q entry body, n = q ++ loop entry body exit done := by
  rcases n.eq_done_or_append with rfl | ⟨q, e', o', rfl⟩ | ⟨q, entry, body, exit', rfl⟩
  · cases h
  · rw [backwards_append_act] at h
    cases h
  · rw [backwards_append_loop] at h
    obtain ⟨⟨rfl⟩, -⟩ := h
    exact ⟨q, entry, body, rfl⟩

theorem backwards_ne_enter (n : Nest) (o : Int) (older : List Instruction) :
    n.backwards ≠ .enter o :: older := by
  intro h
  rcases n.eq_done_or_append with rfl | ⟨q, e', o', rfl⟩ | ⟨q, entry, body, exit, rfl⟩
  · cases h
  · rw [backwards_append_act] at h
    cases h
  · rw [backwards_append_loop] at h
    cases h

end Nest

/-- **A program compiles exactly if it is balanced**, to the encoding of its nest. -/
theorem Program.compile_eq_ok_iff {p : Program} {code : Bytecode} :
    p.compile = .ok code ↔ ∃ n : Nest, n.program = p ∧ n.encode = code := by
  constructor
  · intro h
    unfold Program.compile at h
    cases hn : Nest.ofProgram? p with
    | error e =>
      rw [hn] at h
      cases h
    | ok n =>
      rw [hn] at h
      exact ⟨n, Nest.ofProgram?_eq_ok_iff.mp hn, Except.ok.inj h⟩
  · rintro ⟨n, rfl, rfl⟩
    exact Nest.compile_program n

end Tapecode
