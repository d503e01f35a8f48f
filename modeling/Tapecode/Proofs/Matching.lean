import Mathlib.Data.List.Induction
import Tapecode.Proofs.Balance
import Tapecode.Proofs.Brackets

/-!
# Matched loops

Whether the brackets of a list are matched can be told from the heights of its prefixes: the list is
covered if no prefix ends more loops than are open (`Brackets.Covered`). Some end is unmatched
exactly if the list is not covered (`Brackets.exists_unmatched_iff`), and in a covered list some
start is unclosed exactly if the height is not zero (`Brackets.exists_unclosed_iff`). So two lists
with the same heights have the same fate, whatever they are made of (`Brackets.Alike`).

A reader that keeps count of the open loops refuses what is not covered (`Brackets.Counts`), and so
the outcome of reading is told from the heights (`Brackets.Judged`). For programs this means that
reading a nest fails for the right reason (`Nest.ofProgram?_judged`), and that a program is balanced
if its brackets are (`Program.balanced_iff`).
-/

namespace Tapecode

namespace Brackets

variable {α β γ : Type} {weight : α → Int} {weight' : β → Int} {weight'' : γ → Int}
  {xs ys : List α} {t : α} {depth : Int}

/-! ## Lists that are covered -/

/-- Every end among the items has a loop to close, if `depth` loops are open before them. -/
def Covered (weight : α → Int) (depth : Int) (xs : List α) : Prop :=
  ∀ ys, ys <+: xs → 0 ≤ depth + height weight ys

theorem inside_iff : Inside weight xs ↔ Covered weight 0 xs := by
  simp only [Inside, Covered, Int.zero_add]

@[simp] theorem covered_nil : Covered weight depth [] ↔ 0 ≤ depth := by
  simp [Covered]

@[simp] theorem covered_cons :
    Covered weight depth (t :: xs) ↔ 0 ≤ depth ∧ Covered weight (depth + weight t) xs := by
  constructor
  · intro h
    refine ⟨by simpa using h [] List.nil_prefix, ?_⟩
    intro ys hys
    have hcons := h (t :: ys) (List.cons_prefix_cons.mpr ⟨rfl, hys⟩)
    rw [height_cons] at hcons
    omega
  · rintro ⟨hdepth, h⟩ ys hys
    rcases List.prefix_cons_iff.mp hys with rfl | ⟨zs, rfl, hzs⟩
    · simpa using hdepth
    · have hrest := h zs hzs
      rw [height_cons]
      omega

theorem covered_append : Covered weight depth (xs ++ ys) ↔
    Covered weight depth xs ∧ Covered weight (depth + height weight xs) ys := by
  induction xs generalizing depth with
  | nil =>
    simp only [List.nil_append, covered_nil, height_nil, Int.add_zero]
    exact ⟨fun h => ⟨by simpa using h [] List.nil_prefix, h⟩, fun h => h.2⟩
  | cons x xs ih =>
    rw [List.cons_append, covered_cons, covered_cons, ih, height_cons, Int.add_assoc, and_assoc]

theorem Balanced.covered_iff (h : Balanced weight xs) : Covered weight depth xs ↔ 0 ≤ depth := by
  constructor
  · intro hcovered
    simpa using hcovered [] List.nil_prefix
  · intro hdepth ys hys
    have hinside := h.inside ys hys
    omega

theorem balanced_replicate (n : Nat) (ht : weight t = 0) :
    Balanced weight (List.replicate n t) := by
  induction n with
  | zero => exact .nil
  | succ n ih => exact (Balanced.singleton ht).append ih

/-! ## Open loops by height -/

namespace Layers

variable {opened : List α}

/-- The height is the number of open loops. -/
theorem height_eq (h : Layers weight xs opened) : height weight xs = opened.length := by
  induction h with
  | flat hxs => simp [hxs.level]
  | start _ hs hys ih =>
    simp only [height_append, height_cons, ih, hs, hys.level, List.length_cons]
    omega

end Layers

section

variable (hweight : ∀ x, weight x = 1 ∨ weight x = 0 ∨ weight x = -1)

include hweight

/-- Items that close no loop from before them fall into layers. -/
theorem Inside.exists_layers (h : Inside weight xs) : ∃ opened, Layers weight xs opened := by
  induction xs using List.reverseRecOn with
  | nil => exact ⟨[], .flat .nil⟩
  | append_singleton xs t ih =>
    obtain ⟨opened, hlayers⟩ := ih fun ys hys => h ys (hys.trans (List.prefix_append _ _))
    have hall := h _ List.prefix_rfl
    rw [height_append, height_cons, height_nil, hlayers.height_eq] at hall
    rcases hweight t with ht | ht | ht
    · exact ⟨t :: opened, .start hlayers ht .nil⟩
    · exact ⟨opened, hlayers.append (.singleton ht)⟩
    · cases opened with
      | nil =>
        rw [ht, List.length_nil] at hall
        omega
      | cons s outer => exact ⟨outer, hlayers.close ht⟩

theorem hasOpen_iff (h : Inside weight xs) : HasOpen weight xs ↔ 0 < height weight xs := by
  obtain ⟨opened, hlayers⟩ := h.exists_layers hweight
  rw [hlayers.hasOpen_iff, hlayers.height_eq, ne_eq, ← List.length_eq_zero_iff]
  omega

/-- **Some end is unmatched exactly if the items end more loops than they start**, at some point. -/
theorem exists_unmatched_iff :
    (∃ before t, Unmatched weight xs before t) ↔ ¬Inside weight xs := by
  constructor
  · rintro ⟨before, t, after, rfl, ht, hopen⟩ h
    have hbefore : Inside weight before := fun ys hys => h ys (hys.trans (List.prefix_append _ _))
    rw [hasOpen_iff hweight hbefore] at hopen
    have hend := h (before ++ [t]) ⟨after, by simp⟩
    rw [height_append, height_cons, height_nil, ht] at hend
    omega
  · intro h
    induction xs using List.reverseRecOn with
    | nil => exact absurd Balanced.nil.inside h
    | append_singleton xs t ih =>
      by_cases hxs : Inside weight xs
      · -- the last item goes below the height at which the items began
        have hend : height weight xs + weight t < 0 := by
          by_contra hle
          refine h fun ys hys => ?_
          rcases List.prefix_concat_iff.mp hys with rfl | hys
          · simpa using hle
          · exact hxs ys hys
        have hall := hxs xs List.prefix_rfl
        refine ⟨xs, t, [], rfl, ?_, ?_⟩
        · rcases hweight t with ht | ht | ht <;> omega
        · rw [hasOpen_iff hweight hxs]
          rcases hweight t with ht | ht | ht <;> omega
      · obtain ⟨before, t', after, rfl, ht', hopen⟩ := ih hxs
        exact ⟨before, t', after ++ [t], by simp, ht', hopen⟩

theorem matched_iff : (∀ before t, ¬Unmatched weight xs before t) ↔ Inside weight xs := by
  rw [← not_iff_not, ← exists_unmatched_iff hweight]
  simp only [not_forall, not_not]

/-- In items without unmatched ends, some start is unclosed exactly if more loops are started than
ended. -/
theorem exists_unclosed_iff (h : Inside weight xs) :
    (∃ s after, Unclosed weight xs s after) ↔ 0 < height weight xs := by
  rw [← hasOpen_iff hweight h]
  constructor
  · rintro ⟨s, after, before, hsplit⟩
    exact ⟨before, s, after, hsplit⟩
  · rintro ⟨before, s, after, hsplit⟩
    exact ⟨s, after, before, hsplit⟩

end

/-! ## Verdicts -/

/-- What is said of some items: that there is an unmatched end if there is one, or else that there
is an unclosed start, or else anything that is not an error. -/
def Judged {ε ρ : Type} (weight : α → Int) (unmatched unclosed : ε → Prop) (xs : List α)
    (result : Except ε ρ) : Prop :=
  (¬Inside weight xs ∧ ∃ e, unmatched e ∧ result = .error e) ∨
    (Inside weight xs ∧ 0 < height weight xs ∧ ∃ e, unclosed e ∧ result = .error e) ∨
    (Balanced weight xs ∧ ∃ r, result = .ok r)

namespace Judged

variable {ε ρ : Type} {unmatched unclosed : ε → Prop} {result : Except ε ρ}
  (hweight : ∀ x, weight x = 1 ∨ weight x = 0 ∨ weight x = -1)
  (h : Judged weight unmatched unclosed xs result)

omit hweight in
theorem map {ρ' : Type} (f : ρ → ρ') (h : Judged weight unmatched unclosed xs result) :
    Judged weight unmatched unclosed xs (result.map f) := by
  rcases h with ⟨hnot, e, he, rfl⟩ | ⟨hinside, hheight, e, he, rfl⟩ | ⟨hbalanced, r, rfl⟩
  · exact .inl ⟨hnot, e, he, rfl⟩
  · exact .inr (.inl ⟨hinside, hheight, e, he, rfl⟩)
  · exact .inr (.inr ⟨hbalanced, f r, rfl⟩)

include hweight h

theorem of_unmatched (hends : ∃ before t, Unmatched weight xs before t) :
    ∃ e, unmatched e ∧ result = .error e := by
  rw [exists_unmatched_iff hweight] at hends
  rcases h with ⟨-, herror⟩ | ⟨hinside, -⟩ | ⟨hbalanced, -⟩
  · exact herror
  · exact absurd hinside hends
  · exact absurd hbalanced.inside hends

theorem of_unclosed (hends : ∀ before t, ¬Unmatched weight xs before t)
    (hstarts : ∃ s after, Unclosed weight xs s after) : ∃ e, unclosed e ∧ result = .error e := by
  have hinside := (matched_iff hweight).mp hends
  rw [exists_unclosed_iff hweight hinside] at hstarts
  rcases h with ⟨hnot, -⟩ | ⟨-, -, herror⟩ | ⟨hbalanced, -⟩
  · exact absurd hinside hnot
  · exact herror
  · rw [hbalanced.level] at hstarts
    omega

theorem of_matched (hends : ∀ before t, ¬Unmatched weight xs before t)
    (hstarts : ∀ s after, ¬Unclosed weight xs s after) : ∃ r, result = .ok r := by
  rcases h with ⟨hnot, -⟩ | ⟨hinside, hheight, -⟩ | ⟨-, hok⟩
  · exact absurd ((matched_iff hweight).mp hends) hnot
  · obtain ⟨s, after, hunclosed⟩ := (exists_unclosed_iff hweight hinside).mpr hheight
    exact absurd hunclosed (hstarts s after)
  · exact hok

end Judged

/-! ## Lists with the same brackets -/

/-- Two lists have the same brackets, up to matched ones. -/
structure Alike (weight : α → Int) (weight' : β → Int) (xs : List α) (ys : List β) : Prop where
  height_eq : height weight xs = height weight' ys
  covered_iff : ∀ depth, Covered weight depth xs ↔ Covered weight' depth ys

namespace Alike

theorem trans {xs : List α} {ys : List β} {zs : List γ} (h : Alike weight weight' xs ys)
    (h' : Alike weight' weight'' ys zs) : Alike weight weight'' xs zs where
  height_eq := h.height_eq.trans h'.height_eq
  covered_iff depth := (h.covered_iff depth).trans (h'.covered_iff depth)

theorem of_balanced {xs : List α} {ys : List β} (hxs : Balanced weight xs)
    (hys : Balanced weight' ys) : Alike weight weight' xs ys where
  height_eq := hxs.level.trans hys.level.symm
  covered_iff _ := hxs.covered_iff.trans hys.covered_iff.symm

theorem singleton {x : α} {y : β} (h : weight x = weight' y) :
    Alike weight weight' [x] [y] where
  height_eq := by simp [h]
  covered_iff depth := by simp [h]

theorem append {xs xs' : List α} {ys ys' : List β} (h : Alike weight weight' xs ys)
    (h' : Alike weight weight' xs' ys') : Alike weight weight' (xs ++ xs') (ys ++ ys') where
  height_eq := by simp [h.height_eq, h'.height_eq]
  covered_iff depth := by
    rw [covered_append, covered_append, h.covered_iff, h.height_eq, h'.covered_iff]

/-- Balanced items do not matter. -/
theorem balanced_append {xs zs : List α} {ys : List β} (h : Alike weight weight' xs ys)
    (hzs : Balanced weight zs) : Alike weight weight' (zs ++ xs) ys :=
  (of_balanced hzs .nil).append h

theorem inside_iff {xs : List α} {ys : List β} (h : Alike weight weight' xs ys) :
    Inside weight xs ↔ Inside weight' ys := by
  rw [Brackets.inside_iff, Brackets.inside_iff, h.covered_iff]

/-- **Lists with the same brackets are judged alike.** -/
theorem judged {ε ρ : Type} {unmatched unclosed : ε → Prop} {result : Except ε ρ} {xs : List α}
    {ys : List β} (h : Alike weight weight' xs ys)
    (hxs : Judged weight unmatched unclosed xs result) :
    Judged weight' unmatched unclosed ys result := by
  rcases hxs with ⟨hnot, herror⟩ | ⟨hinside, hheight, herror⟩ | ⟨hbalanced, hok⟩
  · exact .inl ⟨fun hys => hnot (h.inside_iff.mpr hys), herror⟩
  · exact .inr (.inl ⟨h.inside_iff.mp hinside, h.height_eq ▸ hheight, herror⟩)
  · refine .inr (.inr ⟨⟨h.inside_iff.mp hbalanced.inside, ?_⟩, hok⟩)
    rw [← h.height_eq, hbalanced.level]

end Alike

/-! ## Readers that count open loops -/

/-- A reader takes items one by one, and `depth` is the number of loops that are open in its state.
As long as the state is `good`, it refuses nothing but an end where no loop is open. -/
structure Counts {σ ε : Type} (weight : α → Int) (step : σ → α → Except ε σ) (good : σ → Prop)
    (depth : σ → Nat) (refusal : ε) : Prop where
  refuses : ∀ s x, good s → weight x = -1 → depth s = 0 → step s x = .error refusal
  takes : ∀ s x, good s → (weight x = -1 → depth s ≠ 0) →
    ∃ s', step s x = .ok s' ∧ good s' ∧ (depth s' : Int) = depth s + weight x

/-- **A reader that counts open loops takes exactly the items that are covered.** -/
theorem Counts.foldlM_cases {σ ε : Type} {step : σ → α → Except ε σ} {good : σ → Prop}
    {depth : σ → Nat} {refusal : ε} (h : Counts weight step good depth refusal) {s : σ}
    (hs : good s) (xs : List α) :
    (¬Covered weight (depth s) xs ∧ xs.foldlM step s = .error refusal) ∨
      (Covered weight (depth s) xs ∧ ∃ s', xs.foldlM step s = .ok s' ∧ good s' ∧
        (depth s' : Int) = depth s + height weight xs) := by
  induction xs generalizing s with
  | nil => exact .inr ⟨by simp, s, rfl, hs, by simp⟩
  | cons x xs ih =>
    rw [List.foldlM_cons, covered_cons]
    by_cases hx : weight x = -1 → depth s ≠ 0
    · obtain ⟨s', hstep, hs', hdepth⟩ := h.takes s x hs hx
      simp only [hstep, bind, Except.bind, ← hdepth, height_cons, ← Int.add_assoc,
        Int.natCast_nonneg, true_and]
      exact ih hs'
    · obtain ⟨hend, hzero⟩ : weight x = -1 ∧ depth s = 0 := by simpa using hx
      refine .inl ⟨?_, by simp only [h.refuses s x hs hend hzero, bind, Except.bind]⟩
      rintro ⟨-, hcovered⟩
      have hneg := hcovered [] List.nil_prefix
      rw [hend, hzero, height_nil] at hneg
      omega

end Brackets

/-! ## Programs -/

open Brackets

/-- What an instruction does to the number of open loops. -/
def Instruction.weight : Instruction → Int
  | act _ _ => 0
  | enter _ => 1
  | leave _ => -1

theorem Instruction.weight_cases (i : Instruction) :
    i.weight = 1 ∨ i.weight = 0 ∨ i.weight = -1 := by
  cases i <;> simp [weight]

namespace Nest

/-- As many loops have to be open before a program as there are ends without a start in it. -/
theorem ends_length_le_iff (p : Program) (depth : Nat) :
    (p.foldr Suffix.extend {}).ends.length ≤ depth ↔ Covered Instruction.weight depth p := by
  induction p generalizing depth with
  | nil => simp
  | cons i rest ih =>
    rw [List.foldr_cons, covered_cons]
    generalize rest.foldr Suffix.extend {} = s at ih
    have hdepth : 0 ≤ (depth : Int) := Int.natCast_nonneg depth
    cases i with
    | act e o => simpa [Suffix.extend, Instruction.weight, hdepth] using ih depth
    | enter o =>
      have hrest := ih (depth + 1)
      have hlength : (Suffix.extend (.enter o) s).ends.length = s.ends.length - 1 := by
        rcases hends : s.ends with _ | ⟨e, ends⟩ <;> simp [Suffix.extend, hends]
      rw [Int.natCast_succ] at hrest
      rw [hlength, Instruction.weight, ← hrest]
      omega
    | leave o =>
      change s.ends.length + 1 ≤ depth ↔ _
      cases depth with
      | zero =>
        have hneg : ¬Covered Instruction.weight (-1) rest := fun h => by
          simpa using h [] List.nil_prefix
        simpa [Instruction.weight] using hneg
      | succ depth =>
        have hrest := ih depth
        have hsub : ((depth + 1 : Nat) : Int) + Instruction.weight (.leave o) = depth := by
          rw [Instruction.weight]
          omega
        rw [hsub, ← hrest]
        omega

/-- The loop starts without an end are counted by the height. -/
theorem unclosed_iff (p : Program) :
    0 ≤ height Instruction.weight p + (p.foldr Suffix.extend {}).ends.length ∧
      ((p.foldr Suffix.extend {}).unclosed = true ↔
        0 < height Instruction.weight p + (p.foldr Suffix.extend {}).ends.length) := by
  induction p with
  | nil => simp
  | cons i rest ih =>
    rw [List.foldr_cons, height_cons]
    generalize rest.foldr Suffix.extend {} = s at ih
    obtain ⟨hnonneg, hunclosed⟩ := ih
    cases i with
    | act e o => simpa [Suffix.extend, Instruction.weight] using ⟨hnonneg, hunclosed⟩
    | leave o =>
      have hsum : Instruction.weight (.leave o) + height Instruction.weight rest +
          (Suffix.extend (.leave o) s).ends.length =
            height Instruction.weight rest + s.ends.length := by
        simp only [Suffix.extend, Instruction.weight, List.length_cons]
        omega
      rw [hsum]
      exact ⟨hnonneg, hunclosed⟩
    | enter o =>
      rcases hends : s.ends with _ | ⟨⟨exit, after⟩, ends⟩
      · rw [hends, List.length_nil] at hnonneg
        simp only [Suffix.extend, hends, Instruction.weight, List.length_nil, true_iff]
        omega
      · have hsum : Instruction.weight (.enter o) + height Instruction.weight rest +
            (Suffix.extend (.enter o) s).ends.length =
              height Instruction.weight rest + s.ends.length := by
          simp only [Suffix.extend, hends, Instruction.weight, List.length_cons]
          omega
        rw [hsum]
        refine ⟨hnonneg, ?_⟩
        rw [← hunclosed]
        simp only [Suffix.extend, hends]

/-- **Reading fails for the right reason**: on an end too many, or else on a start too many. -/
theorem ofProgram?_judged (p : Program) :
    Judged Instruction.weight (· = .unmatchedLoopEnd) (· = .unclosedLoop) p (ofProgram? p) := by
  have hends := ends_length_le_iff p 0
  obtain ⟨hnonneg, hunclosed⟩ := unclosed_iff p
  rw [Int.natCast_zero, ← inside_iff] at hends
  unfold ofProgram?
  generalize p.foldr Suffix.extend {} = s at hends hnonneg hunclosed
  rcases hs : s.ends with _ | ⟨e, ends⟩
  · rw [hs] at hends hnonneg hunclosed
    have hinside : Inside Instruction.weight p := hends.mp (Nat.le_refl 0)
    rw [List.length_nil, Int.natCast_zero, Int.add_zero] at hnonneg hunclosed
    cases hu : s.unclosed with
    | true => exact .inr (.inl ⟨hinside, hunclosed.mp hu, _, rfl, by simp only [hs, hu]⟩)
    | false =>
      rw [hu] at hunclosed
      refine .inr (.inr ⟨⟨hinside, ?_⟩, s.nest, by simp only [hs, hu]⟩)
      by_contra hne
      exact Bool.false_ne_true (hunclosed.mpr (by omega))
  · refine .inl ⟨fun hinside => ?_, _, rfl, by simp only [hs]⟩
    have hle := hends.mpr hinside
    rw [hs, List.length_cons] at hle
    omega

end Nest

namespace Program

/-- **A program writes out a nest exactly if its brackets are balanced.** -/
theorem balanced_iff {p : Program} : p.Balanced ↔ Brackets.Balanced Instruction.weight p := by
  constructor
  · rintro ⟨n, rfl⟩
    have hread := n.ofProgram?_program
    rcases Nest.ofProgram?_judged n.program with
      ⟨-, e, -, herror⟩ | ⟨-, -, e, -, herror⟩ | ⟨hbalanced, -⟩
    · rw [hread] at herror
      cases herror
    · rw [hread] at herror
      cases herror
    · exact hbalanced
  · intro h
    rcases Nest.ofProgram?_judged p with ⟨hinside, -⟩ | ⟨-, hheight, -⟩ | ⟨-, n, hn⟩
    · exact absurd h.inside hinside
    · rw [h.level] at hheight
      omega
    · exact ⟨n, Nest.ofProgram?_eq_ok_iff.mp hn⟩

end Program

end Tapecode
