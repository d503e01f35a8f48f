import Mathlib.Data.List.Induction
import Tapecode.Proofs.Decompilation
import Tapecode.Proofs.NormalForm

/-!
# Programs that cannot be simplified

Which programs the passes leave alone can be read off neighbouring instructions, without a builder:
`Program.Irreducible` lists what must not stand next to each other. A program is irreducible exactly
if it is in normal form for all passes (`Program.normal_all_iff`).

So optimising leaves no opportunity behind, and a balanced program is irreducible exactly if
optimising does not change it (`Program.irreducible_iff_optimized`).
-/

namespace Tapecode

namespace Program

/-- No neighbouring instructions can be simplified by any pass. -/
structure Irreducible (p : Program) : Prop where
  /-- No change, set or input stands directly behind a write of its cell. -/
  written : ∀ w e o, w.isWrite = true → e ≠ .output → ¬[.act w o, .act e o] <:+: p
  /-- The program does not start with a loop. -/
  first : ∀ o, ¬[.enter o] <+: p
  /-- No loop stands directly behind another one on the same cell. -/
  again : ∀ exit, ¬[.leave exit, .enter 0] <:+: p
  /-- No loop stands directly behind a store of zero in its cell. -/
  zeroed : ∀ o, ¬[.act (.set 0) o, .enter o] <:+: p
  /-- No loop does nothing but change its own cell. -/
  counting : ∀ entry d, d ≠ 0 → ¬[.enter entry, .act (.change d) 0, .leave 0] <:+: p

/-! ## One instruction at a time -/

/-- A program is in normal form if no pass rewrites an instruction behind those before it. -/
theorem normal_iff {passes : Passes} {p : Program} :
    p.Normal passes ↔ ∀ before i after, p = before ++ i :: after →
      passes.rewrites before.reverse i = false := by
  rw [Normal]
  constructor
  · rintro h before i after rfl
    rw [List.reverse_append, List.reverse_cons, List.append_assoc, Passes.normal_append] at h
    simpa using h.2.1
  · intro h
    induction p using List.reverseRecOn with
    | nil => trivial
    | append_singleton p i ih =>
      rw [List.reverse_append]
      refine ⟨?_, ih ?_⟩
      · simpa using h p i [] rfl
      · rintro before j after rfl
        exact h before j (after ++ [i]) (by simp)

/-- Instructions stand in a row if the last of them is preceded by the others. -/
theorem concat_infix_iff {p : Program} (last : Program) {i : Instruction} :
    last ++ [i] <:+: p ↔
      ∃ before after, p = before ++ i :: after ∧ last.reverse <+: before.reverse := by
  simp only [List.reverse_prefix]
  constructor
  · rintro ⟨front, after, rfl⟩
    exact ⟨front ++ last, after, by simp, front, rfl⟩
  · rintro ⟨_, after, rfl, front, rfl⟩
    exact ⟨front, after, by simp⟩

end Program

namespace Passes

variable {o : Int} {older : List Instruction}

theorem writtenLast_iff : writtenLast o older = true ↔
    ∃ w, w.isWrite = true ∧ [.act w o] <+: older := by
  constructor
  · intro h
    rcases older with _ | ⟨⟨w, o'⟩ | _ | _, rest⟩
    · cases h
    · obtain ⟨hw, rfl⟩ : w.isWrite = true ∧ o' = o := by
        simpa [writtenLast, Instruction.writesAt, Instruction.isWrite, Instruction.offset] using h
      exact ⟨w, hw, rest, rfl⟩
    · cases h
    · cases h
  · rintro ⟨w, hw, rest, rfl⟩
    simpa [writtenLast, Instruction.writesAt, Instruction.isWrite, Instruction.offset] using hw

theorem zeroLast_iff : zeroLast o older = true ↔
    older = [] ∨ (o = 0 ∧ ∃ exit, [.leave exit] <+: older) ∨ [.act (.set 0) o] <+: older := by
  constructor
  · intro h
    unfold zeroLast at h
    split at h
    · exact .inl rfl
    · exact .inr (.inl ⟨by simpa using h, _, _, rfl⟩)
    · obtain ⟨rfl, rfl⟩ : _ = (0 : Int8) ∧ _ = o := by simpa using h
      exact .inr (.inr ⟨_, rfl⟩)
    · cases h
  · rintro (rfl | ⟨rfl, exit, rest, rfl⟩ | ⟨rest, rfl⟩)
    · rfl
    · rfl
    · simp [zeroLast]

theorem countsLast_iff : countsLast o older = true ↔
    o = 0 ∧ ∃ entry d, d ≠ 0 ∧ [.act (.change d) 0, .enter entry] <+: older := by
  constructor
  · intro h
    unfold countsLast at h
    split at h
    · obtain ⟨ho, hd⟩ : o = 0 ∧ ¬_ = (0 : Int8) := by simpa using h
      exact ⟨ho, _, _, hd, _, rfl⟩
    · cases h
  · rintro ⟨rfl, entry, d, hd, rest, rfl⟩
    simpa [countsLast] using hd

/-- An effect other than output is rewritten behind a write of its cell. -/
theorem rewrites_all_act {e : Effect} (he : e ≠ .output) (older : List Instruction) (o : Int) :
    all.rewrites older (.act e o) = writtenLast o older := by
  cases e with
  | output => exact absurd rfl he
  | change d => rfl
  | set v => rfl
  | input => rfl

end Passes

/-! ## All passes -/

instance Passes.decidableNormal (passes : Passes) (older : List Instruction) :
    (recent : List Instruction) → Decidable (passes.Normal older recent)
  | [] => .isTrue trivial
  | i :: rest =>
    have := decidableNormal passes older rest
    inferInstanceAs (Decidable (passes.rewrites (rest ++ older) i = false ∧ _))

namespace Program

/-- **Normal forms for all passes are told by neighbouring instructions.** -/
theorem normal_all_iff {p : Program} : p.Normal .all ↔ p.Irreducible := by
  rw [normal_iff]
  constructor
  · intro h
    have hrow (last : Program) {i : Instruction} (hfound : last ++ [i] <:+: p) :
        ∃ older, last.reverse <+: older ∧ Passes.all.rewrites older i = false := by
      obtain ⟨before, after, hp, hlast⟩ := (concat_infix_iff last).mp hfound
      exact ⟨before.reverse, hlast, h before i after hp⟩
    refine ⟨?_, ?_, ?_, ?_, ?_⟩
    · intro w e o hw he hfound
      obtain ⟨older, hlast, hnot⟩ := hrow [.act w o] hfound
      rw [Passes.rewrites_all_act he, Passes.writtenLast_iff.mpr ⟨w, hw, hlast⟩] at hnot
      cases hnot
    · rintro o ⟨after, hp⟩
      have hnot : Passes.zeroLast o [] = false := h [] (.enter o) after hp.symm
      cases hnot
    · intro exit hfound
      obtain ⟨older, hlast, hnot⟩ := hrow [.leave exit] hfound
      have hzero := Passes.zeroLast_iff.mpr (.inr (.inl ⟨rfl, exit, hlast⟩))
      exact Bool.false_ne_true (hnot.symm.trans hzero)
    · intro o hfound
      obtain ⟨older, hlast, hnot⟩ := hrow [.act (.set 0) o] hfound
      have hzero := Passes.zeroLast_iff.mpr (.inr (.inr hlast))
      exact Bool.false_ne_true (hnot.symm.trans hzero)
    · intro entry d hd hfound
      obtain ⟨older, hlast, hnot⟩ := hrow [.enter entry, .act (.change d) 0] hfound
      have hcounts := Passes.countsLast_iff.mpr ⟨rfl, entry, d, hd, hlast⟩
      exact Bool.false_ne_true (hnot.symm.trans hcounts)
  · intro h before i after hp
    have hrow (last : Program) (hlast : last.reverse <+: before.reverse) : last ++ [i] <:+: p :=
      (concat_infix_iff last).mpr ⟨before, after, hp, hlast⟩
    rw [← Bool.not_eq_true]
    intro hrewrites
    cases i with
    | act e o =>
      have he : e ≠ .output := by
        rintro rfl
        cases hrewrites
      rw [Passes.rewrites_all_act he] at hrewrites
      obtain ⟨w, hw, hlast⟩ := Passes.writtenLast_iff.mp hrewrites
      exact h.written w e o hw he (hrow [.act w o] hlast)
    | enter o =>
      rcases Passes.zeroLast_iff.mp hrewrites with hnil | ⟨rfl, exit, hlast⟩ | hlast
      · rw [List.reverse_eq_nil_iff.mp hnil] at hp
        exact h.first o ⟨after, hp.symm⟩
      · exact h.again exit (hrow [.leave exit] hlast)
      · exact h.zeroed o (hrow [.act (.set 0) o] hlast)
    | leave o =>
      obtain ⟨rfl, entry, d, hd, hlast⟩ := Passes.countsLast_iff.mp hrewrites
      exact h.counting entry d hd (hrow [.enter entry, .act (.change d) 0] hlast)

instance (p : Program) : Decidable p.Irreducible :=
  have : Decidable (p.Normal .all) := inferInstanceAs (Decidable (Passes.all.Normal [] p.reverse))
  decidable_of_iff (p.Normal .all) normal_all_iff

/-- **No opportunity to simplify is left**: a balanced program is not changed by optimising exactly
if it is irreducible. Whatever is optimised or parsed with all passes is irreducible, and what is
parsed has no change by nothing. Offsets are summed exactly, as they are wherever they cannot add up
to more than a word (`Program.optimize_of_reach_le`). -/
theorem irreducible_iff_optimized :
    (∀ p : Program, p.Balanced → (p.optimize .all = .ok p ↔ p.Irreducible)) ∧
      (∀ p q : Program, p.optimize .all = .ok q → q.Irreducible) ∧
      ∀ source program ws, parse .all source = .ok (program, ws) →
        program.Irreducible ∧ program.Effective := by
  have hresult (p q : Program) (h : p.optimize .all = .ok q) : q.Irreducible :=
    normal_all_iff.mp (normal_of_optimize h).2
  refine ⟨?_, hresult, ?_⟩
  · intro p hp
    exact ⟨hresult p p, fun h => (normal_all_iff.mpr h).optimize_eq hp⟩
  · intro source program ws hparse
    obtain ⟨plain, -, hplain⟩ := exists_plain_of_parse hparse
    exact ⟨hresult plain program hplain, (effective_of_parse hparse).2⟩

/-- A change by nothing in a loop and a loop behind it on another cell stay; two changes and a loop
that counts to zero do not. The source text is `>+-[.]<,[-]+`. -/
theorem irreducible_iff_optimized_of_loops :
    Program.optimize .all [.act .input 0, .enter 0, .act (.change 0) 0, .leave 0, .enter 1,
        .act .output 0, .leave 0] = .ok [.act .input 0, .enter 0, .act (.change 0) 0, .leave 0,
        .enter 1, .act .output 0, .leave 0] ∧
      Irreducible [.act (.set 0) 1, .act .output 2] ∧
      Irreducible [.act .input 0, .act (.set 1) 0] ∧
      Effective [.act .input 0, .act (.set 1) 0] := by
  obtain ⟨hiff, hoptimized, hparsed⟩ := irreducible_iff_optimized
  refine ⟨?_, ?_, ?_⟩
  · refine (hiff _ ?_).mpr (by decide)
    exact ⟨.act .input 0 (.loop 0 (.act (.change 0) 0 .done) 0
      (.loop 1 (.act .output 0 .done) 0 .done)), rfl⟩
  · exact hoptimized [.act (.change 1) 1, .act (.change 2) 1, .enter 1, .act (.change (-1)) 0,
      .leave 0, .act .output 1] _ rfl
  · exact hparsed ([.right, .increment, .decrement, .loopStart, .output, .loopEnd, .left, .input,
      .loopStart, .decrement, .loopEnd, .increment].map Symbol.byte) _ _ rfl

end Program

end Tapecode
