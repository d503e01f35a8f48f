import Tapecode.Proofs.Parsing

/-!
# Brackets

Which brackets of a list have a partner is said by counting. Each item has a weight: one if it starts
a loop, minus one if it ends one, and zero otherwise. A loop is open as long as the items behind its
start never come below the height at which they began (`Brackets.Inside`), an end is unmatched if no
loop is open before it, and a start is unclosed if its loop is open after all items.

A list of which every end is matched falls into layers: balanced pieces with the starts of the open
loops between them (`Brackets.Layers`). A parser goes from layer to layer, so the positions that it
keeps are those of the open loops (`Parse.Took`), and what it reports is the first unmatched end, or
else the last unclosed start (`parseTokens_verdict`).
-/

namespace Tapecode

namespace Brackets

variable {α : Type} (weight : α → Int)

/-! ## Counting -/

/-- How many more loops are started than ended. -/
def height : List α → Int
  | [] => 0
  | x :: xs => weight x + height xs

/-- No end among the items closes a loop from before them. -/
def Inside (xs : List α) : Prop :=
  ∀ ys, ys <+: xs → 0 ≤ height weight ys

/-- Some loop is open after the items: no end that follows its start closes it. -/
def HasOpen (xs : List α) : Prop :=
  ∃ before s after, xs = before ++ s :: after ∧ weight s = 1 ∧ Inside weight after

/-- The end `t` behind `before` has no open loop to close. -/
def Unmatched (xs before : List α) (t : α) : Prop :=
  ∃ after, xs = before ++ t :: after ∧ weight t = -1 ∧ ¬HasOpen weight before

/-- The loop that is started by `s` before `after` is never closed. -/
def Unclosed (xs : List α) (s : α) (after : List α) : Prop :=
  ∃ before, xs = before ++ s :: after ∧ weight s = 1 ∧ Inside weight after

/-- Every loop that is started is ended, and the other way round. -/
structure Balanced (xs : List α) : Prop where
  inside : Inside weight xs
  level : height weight xs = 0

variable {weight} {xs ys : List α} {s t : α}

@[simp] theorem height_nil : height weight [] = 0 := rfl

@[simp] theorem height_cons : height weight (t :: xs) = weight t + height weight xs := rfl

@[simp] theorem height_append : height weight (xs ++ ys) = height weight xs + height weight ys := by
  induction xs with
  | nil => simp
  | cons x xs ih =>
    rw [List.cons_append, height_cons, height_cons, ih]
    omega

namespace Balanced

theorem nil : Balanced weight [] where
  inside := by
    intro ys hys
    simp [List.prefix_nil.mp hys]
  level := rfl

theorem append (hxs : Balanced weight xs) (hys : Balanced weight ys) :
    Balanced weight (xs ++ ys) where
  inside := by
    intro zs hzs
    rcases List.prefix_or_prefix_of_prefix hzs (List.prefix_append xs ys) with h | ⟨us, rfl⟩
    · exact hxs.inside zs h
    · have hus := hys.inside us ((List.prefix_append_right_inj xs).mp hzs)
      have hlevel := hxs.level
      rw [height_append]
      omega
  level := by simp [hxs.level, hys.level]

theorem singleton (ht : weight t = 0) : Balanced weight [t] where
  inside := by
    intro ys hys
    rcases List.prefix_cons_iff.mp hys with rfl | ⟨zs, rfl, hzs⟩
    · simp
    · simp [List.prefix_nil.mp hzs, ht]
  level := by simp [ht]

theorem pair (hs : weight s = 1) (hxs : Balanced weight xs) (ht : weight t = -1) :
    Balanced weight (s :: (xs ++ [t])) where
  inside := by
    intro ys hys
    rcases List.prefix_cons_iff.mp hys with rfl | ⟨zs, rfl, hzs⟩
    · simp
    rcases List.prefix_concat_iff.mp hzs with rfl | hzs
    · simp [hs, ht, hxs.level]
    · have hinside := hxs.inside zs hzs
      simp only [height_cons, hs]
      omega
  level := by simp [hs, ht, hxs.level]

/-- No loop is open after balanced items. -/
theorem not_hasOpen (h : Balanced weight xs) : ¬HasOpen weight xs := by
  rintro ⟨before, s, after, rfl, hs, hafter⟩
  have hbefore := h.inside before (List.prefix_append _ _)
  have hrest := hafter after List.prefix_rfl
  have hlevel := h.level
  simp only [height_append, height_cons, hs] at hlevel
  omega

end Balanced

/-! ## Layers -/

/-- Balanced pieces with the starts of open loops between them, the innermost listed first. -/
inductive Layers (weight : α → Int) : List α → List α → Prop
  | flat {xs : List α} (h : Balanced weight xs) : Layers weight xs []
  | start {xs ys opened : List α} {s : α} (h : Layers weight xs opened) (hs : weight s = 1)
      (hys : Balanced weight ys) : Layers weight (xs ++ s :: ys) (s :: opened)

namespace Layers

variable {opened : List α}

theorem append (h : Layers weight xs opened) (hys : Balanced weight ys) :
    Layers weight (xs ++ ys) opened := by
  cases h with
  | flat hxs => exact .flat (hxs.append hys)
  | start h hs hzs =>
    rw [List.append_assoc, List.cons_append]
    exact .start h hs (hzs.append hys)

/-- The end of the innermost open loop. -/
theorem close (h : Layers weight xs (s :: opened)) (ht : weight t = -1) :
    Layers weight (xs ++ [t]) opened := by
  cases h with
  | start h hs hys =>
    rw [List.append_assoc, List.cons_append]
    exact h.append (hys.pair hs ht)

theorem hasOpen_iff (h : Layers weight xs opened) : HasOpen weight xs ↔ opened ≠ [] := by
  cases h with
  | flat hxs => simpa using hxs.not_hasOpen
  | start h hs hys =>
    simp only [ne_eq, reduceCtorEq, not_false_eq_true, iff_true]
    exact ⟨_, _, _, rfl, hs, hys.inside⟩

/-- The innermost open loop is the one that is started last. -/
theorem unclosed (h : Layers weight xs (s :: opened)) :
    ∃ after, Unclosed weight xs s after ∧
      ∀ s' after', Unclosed weight xs s' after' → after.length ≤ after'.length := by
  cases h with
  | @start xs ys _ _ h hs hys =>
    refine ⟨ys, ⟨xs, rfl, hs, hys.inside⟩, ?_⟩
    rintro s' after' ⟨before', heq, hs', hafter'⟩
    by_contra hlt
    -- a later start would be open in a balanced piece
    have hsuffix : s' :: after' <:+ ys := by
      refine List.suffix_of_suffix_length_le (heq ▸ List.suffix_append before' _)
        ⟨xs ++ [s], by simp⟩ ?_
      rw [List.length_cons]
      omega
    obtain ⟨between, rfl⟩ := hsuffix
    exact hys.not_hasOpen ⟨between, s', after', rfl, hs', hafter'⟩

end Layers

/-- The unmatched ends of a list are unmatched in every longer one, and no others are in the part
that the two have in common. -/
theorem Unmatched.of_append {before : List α} (h : Unmatched weight (xs ++ ys) before t)
    (hlt : before.length < xs.length) : Unmatched weight xs before t := by
  obtain ⟨after, heq, ht, hopen⟩ := h
  have hwhole : before ++ [t] <+: xs ++ ys := ⟨after, by simp [heq]⟩
  have hprefix : before ++ [t] <+: xs := by
    refine List.prefix_of_prefix_length_le hwhole (List.prefix_append xs ys) ?_
    rw [List.length_append, List.length_singleton]
    omega
  obtain ⟨between, rfl⟩ := hprefix
  exact ⟨between, by simp, ht, hopen⟩

end Brackets

/-! ## Tokens -/

namespace Token

/-- What a token does to the number of open loops. -/
def weight (t : Token) : Int :=
  match t.kind with
  | .symbol .loopStart => 1
  | .symbol .loopEnd => -1
  | .symbol _ | .endOfInput => 0

/-- The tokens before the first end of input. -/
def body (tokens : List Token) : List Token :=
  tokens.takeWhile (·.kind ≠ .endOfInput)

theorem body_symbol (s : Symbol) (position : Position) (rest : List Token) :
    body (⟨.symbol s, position⟩ :: rest) = ⟨.symbol s, position⟩ :: body rest := by
  simp [body]

/-- Where the input is said to end when the loop at `opened` is still open: at the first end of
input, or at the loop itself if there is none. -/
def endPosition (tokens : List Token) (opened : Position) : Position :=
  match tokens.find? (·.kind = .endOfInput) with
  | some t => t.position
  | none => opened

end Token

namespace Parse

open Brackets

/-- What is to be said of a list of tokens. -/
inductive Verdict (tokens : List Token) : Except ParseError (Program × List Warning) → Prop
  /-- If some loop end is unmatched, the first of them is reported. -/
  | unmatched {before : List Token} {t : Token}
      (h : Unmatched Token.weight (Token.body tokens) before t)
      (first : ∀ before' t', Unmatched Token.weight (Token.body tokens) before' t' →
        before.length ≤ before'.length) :
      Verdict tokens (.error (.unmatchedCloseBracket t.position))
  /-- Otherwise, if some loop start is unclosed, the last of them is reported. -/
  | unclosed {s : Token} {after : List Token}
      (matched : ∀ before t, ¬Unmatched Token.weight (Token.body tokens) before t)
      (h : Unclosed Token.weight (Token.body tokens) s after)
      (last : ∀ s' after', Unclosed Token.weight (Token.body tokens) s' after' →
        after.length ≤ after'.length) :
      Verdict tokens (.error (.unclosedLoop (Token.endPosition tokens s.position) s.position))
  /-- Otherwise there is a program. -/
  | ok (matched : ∀ before t, ¬Unmatched Token.weight (Token.body tokens) before t)
      (closed : ∀ s after, ¬Unclosed Token.weight (Token.body tokens) s after)
      (result : Program × List Warning) : Verdict tokens (.ok result)

/-- A parse has taken the tokens `read`: it knows the positions of the loops that are open after
them, and none of their ends is unmatched. -/
structure Took (read : List Token) (p : Parse) : Prop where
  sound : p.Sound
  inner : ∀ t ∈ read, t.kind ≠ .endOfInput
  matched : ∀ before t, ¬Unmatched Token.weight read before t
  layers : ∃ opened, Layers Token.weight read opened ∧ p.opened = opened.map Token.position

theorem Took.start (passes : Passes) : Took [] (.start passes) where
  sound := .start passes
  inner := by simp
  matched := by simp [Unmatched]
  layers := ⟨[], .flat .nil, rfl⟩

variable {read : List Token} {p : Parse}

theorem Took.hasOpen_iff (h : Took read p) : HasOpen Token.weight read ↔ p.opened ≠ [] := by
  obtain ⟨opened, hlayers, hopened⟩ := h.layers
  rw [hlayers.hasOpen_iff, hopened, ne_eq, ne_eq, List.map_eq_nil_iff]

/-- **A parse keeps the positions of the open loops.** -/
theorem Took.step (h : Took read p) {s : Symbol} (position : Position)
    (hs : s = .loopEnd → p.opened ≠ []) :
    ∃ p', p.step s position = .ok p' ∧ Took (read ++ [⟨.symbol s, position⟩]) p' := by
  obtain ⟨p', hstep, -, hopened', -, hsound⟩ := h.sound.step position hs
  obtain ⟨opened, hlayers, hopened⟩ := h.layers
  refine ⟨p', hstep, hsound, ?_, ?_, ?_⟩
  · intro t ht
    rcases List.mem_append.mp ht with ht | ht
    · exact h.inner t ht
    · rw [List.mem_singleton.mp ht]
      exact nofun
  · intro before t hunmatched
    by_cases hlt : before.length < read.length
    · exact h.matched before t (hunmatched.of_append hlt)
    · obtain ⟨after, heq, ht, hopen⟩ := hunmatched
      have hlength := congrArg List.length heq
      simp only [List.length_append, List.length_cons, List.length_nil] at hlength
      obtain ⟨rfl, hlast⟩ := List.append_inj heq (by omega)
      obtain ⟨rfl, -⟩ := List.cons.inj hlast
      rw [h.hasOpen_iff] at hopen
      cases s with
      | loopEnd => exact hopen (hs rfl)
      | increment | decrement | left | right | input | output | loopStart => cases ht
  · rw [hopened', hopened]
    cases s with
    | loopStart => exact ⟨_, .start hlayers rfl .nil, rfl⟩
    | loopEnd =>
      cases opened with
      | nil => exact absurd hopened (hs rfl)
      | cons l outer => exact ⟨outer, hlayers.close rfl, rfl⟩
    | increment | decrement | left | right | input | output =>
      exact ⟨opened, hlayers.append (.singleton rfl), rfl⟩

/-! ## Verdicts -/

theorem Took.body_append (h : Took read p) (tokens : List Token) :
    Token.body (read ++ tokens) = read ++ Token.body tokens :=
  List.takeWhile_append_of_pos (by simpa using h.inner)

theorem Took.endPosition_append (h : Took read p) (tokens : List Token) (opened : Position) :
    Token.endPosition (read ++ tokens) opened = Token.endPosition tokens opened := by
  have hnone : read.find? (·.kind = .endOfInput) = none := by simpa using h.inner
  rw [Token.endPosition, Token.endPosition, List.find?_append, hnone, Option.none_or]

/-- What is said at the end of the tokens, which may be marked or not. -/
theorem Took.verdict_end (h : Took read p) {tokens : List Token} (htokens : Token.body tokens = [])
    {result : Except ParseError (Program × List Warning)}
    (hopen : ∀ l outer, p.opened = l :: outer →
      result = .error (.unclosedLoop (Token.endPosition tokens l) l))
    (hclosed : p.opened = [] → result = p.finish) : Verdict (read ++ tokens) result := by
  have hbody : Token.body (read ++ tokens) = read := by
    rw [h.body_append, htokens, List.append_nil]
  obtain ⟨opened, hlayers, hopened⟩ := h.layers
  cases opened with
  | nil =>
    have hloops := h.sound.loops_eq_nil_iff.mpr hopened
    rw [hclosed hopened, finish, hopened]
    simp only [List.map_nil, Builder.finalize_of_loops_eq_nil h.sound.unfinished hloops]
    refine .ok (by rw [hbody]; exact h.matched) ?_ _
    rw [hbody]
    rintro s after ⟨before, heq, hs, hafter⟩
    exact h.hasOpen_iff.mp ⟨before, s, after, heq, hs, hafter⟩ hopened
  | cons s outer =>
    obtain ⟨after, hunclosed, hlast⟩ := hlayers.unclosed
    rw [hopen _ _ hopened, ← h.endPosition_append]
    rw [← hbody] at hunclosed hlast
    exact .unclosed (by rw [hbody]; exact h.matched) hunclosed hlast

/-- **The rest of a parse comes to the right verdict.** -/
theorem Took.run (h : Took read p) (tokens : List Token) :
    Verdict (read ++ tokens) (p.run tokens) := by
  induction tokens generalizing read p with
  | nil =>
    refine h.verdict_end rfl ?_ ?_
    · intro l outer hopened
      simp [Parse.run, finish, hopened, Token.endPosition]
    · intro _
      rfl
  | cons t rest ih =>
    obtain ⟨kind, position⟩ := t
    cases kind with
    | endOfInput =>
      refine h.verdict_end (by simp [Token.body]) ?_ ?_
      · intro l outer hopened
        simp [Parse.run, hopened, Token.endPosition]
      · intro hopened
        simp [Parse.run, hopened]
    | symbol s =>
      by_cases hs : s = .loopEnd → p.opened ≠ []
      · obtain ⟨p', hstep, h'⟩ := h.step position hs
        rw [List.append_cons]
        simp only [Parse.run, hstep]
        exact ih h'
      · obtain ⟨rfl, hopened⟩ : s = .loopEnd ∧ p.opened = [] := by simpa using hs
        have hbody := h.body_append (⟨.symbol .loopEnd, position⟩ :: rest)
        rw [Token.body_symbol] at hbody
        have hunmatched : Unmatched Token.weight
            (Token.body (read ++ ⟨.symbol .loopEnd, position⟩ :: rest)) read
            ⟨.symbol .loopEnd, position⟩ := by
          refine ⟨Token.body rest, hbody, rfl, ?_⟩
          rw [h.hasOpen_iff]
          simpa using hopened
        simp only [Parse.run, step_loopEnd_of_opened_eq_nil position hopened]
        refine .unmatched hunmatched ?_
        intro before' t' hunmatched'
        by_contra hlt
        rw [hbody] at hunmatched'
        exact h.matched before' t' (hunmatched'.of_append (by omega))

/-- What stands behind the first end of input is not looked at. -/
theorem run_take (p : Parse) (tokens : List Token) :
    p.run (tokens.take ((Token.body tokens).length + 1)) = p.run tokens := by
  induction tokens generalizing p with
  | nil => rfl
  | cons t rest ih =>
    obtain ⟨kind, position⟩ := t
    cases kind with
    | endOfInput => rfl
    | symbol s =>
      rw [Token.body_symbol, List.length_cons, List.take_succ_cons, Parse.run, Parse.run]
      cases p.step s position with
      | ok p' => exact ih p'
      | error e => rfl

end Parse

/-- Passes decide neither whether tokens parse nor how they fail. -/
theorem parseTokens_error_iff (passes : Passes) (tokens : List Token) (e : ParseError) :
    parseTokens passes tokens = .error e ↔ parseTokens .off tokens = .error e := by
  unfold parseTokens
  rcases (Parse.InStep.start .exact passes).run tokens with
    ⟨e', hplain, hlive, -⟩ | ⟨p, ws, q, ws', hplain, hlive, -⟩
  · rw [hplain, hlive]
  · simp [hplain, hlive]

/-- **The parser accepts exactly the tokens whose brackets are matched, and blames the right one.**
Only the tokens before the first end of input count. The first loop end without an open loop before
it is reported; if there is none, the last loop start that is never closed; and if there is none
either, parsing succeeds. Passes do not matter for any of this. -/
theorem parseTokens_verdict (passes : Passes) (tokens : List Token) :
    Parse.Verdict tokens (parseTokens passes tokens) ∧
      parseTokens passes (tokens.take ((Token.body tokens).length + 1)) =
        parseTokens passes tokens ∧
      ∀ passes' e, parseTokens passes tokens = .error e ↔ parseTokens passes' tokens = .error e := by
  refine ⟨(Parse.Took.start passes).run tokens, (Parse.start passes).run_take tokens, ?_⟩
  intro passes' e
  rw [parseTokens_error_iff passes, parseTokens_error_iff passes']

example : parseTokens .all [⟨.symbol .loopStart, ⟨1, 1⟩⟩, ⟨.symbol .loopStart, ⟨1, 2⟩⟩,
    ⟨.symbol .loopEnd, ⟨1, 3⟩⟩, ⟨.endOfInput, ⟨2, 1⟩⟩, ⟨.symbol .loopEnd, ⟨2, 2⟩⟩] =
      .error (.unclosedLoop ⟨2, 1⟩ ⟨1, 1⟩) := by
  rfl

end Tapecode
