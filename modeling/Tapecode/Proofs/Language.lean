import Mathlib.Tactic.Common
import Tapecode.Machine
import Tapecode.Token

/-!
# The language

The meaning of a source text, said without instructions or code: a list of symbols is run on a tape
of zero cells, one symbol at a time.

* A move changes the pointer, which is any integer, and checks nothing.
* Every other symbol first fails unless the pointer is on the tape.
* A loop start on a zero cell goes on just past its partner, and so does a loop end on a cell that
  is not zero. The partner is found by counting brackets (`Language.partner`).

The only calls on the outside are reads, and what is printed is a list of bytes. `Language.Balanced`
says that every bracket has a partner.
-/

namespace Tapecode

namespace Language

/-! ## Brackets -/

/-- How many symbols to go from a bracket `own` to its partner `other`, the partner included, if
`depth` brackets of the same kind have been met on the way. -/
def partner (own other : Symbol) (depth : Nat) : List Symbol → Nat
  | [] => 0
  | s :: rest =>
    if s = other then if depth = 0 then 1 else partner own other (depth - 1) rest + 1
    else partner own other (if s = own then depth + 1 else depth) rest + 1

/-- How many brackets `own` are without their partner after some symbols, if `depth` are before
them. There is no answer if a bracket `other` has none. -/
def depth? (own other : Symbol) (depth : Nat) : List Symbol → Option Nat
  | [] => some depth
  | s :: rest =>
    if s = other then if depth = 0 then none else depth? own other (depth - 1) rest
    else depth? own other (if s = own then depth + 1 else depth) rest

/-- Every loop start has a loop end as its partner, and the other way round. -/
def Balanced (symbols : List Symbol) : Prop :=
  depth? .loopStart .loopEnd 0 symbols = some 0

instance (symbols : List Symbol) : Decidable (Balanced symbols) :=
  inferInstanceAs (Decidable (_ = _))

/-! ## Runs -/

/-- The state of a run. -/
structure Snapshot where
  /-- How many symbols stand before the next one. -/
  position : Nat := 0
  pointer : Int := 0
  tape : Array UInt8
  /-- The number of symbols begun, moves apart. -/
  steps : Nat := 0
  /-- The bytes printed so far. -/
  output : List UInt8 := []
  /-- What the reads to come will be answered. -/
  script : List ReadReply
  /-- The reads so far. -/
  reads : List Event := []

/-- Where a run stands. -/
inductive Status
  | running (s : Snapshot)
  /-- The run is over: at the end of the symbols, or with a fault. -/
  | halted (fault : Option Fault) (s : Snapshot)

namespace Snapshot

/-- The state before the first symbol. -/
def start (tapeSize : Nat) (script : List ReadReply) : Snapshot :=
  { tape := Array.replicate tapeSize 0, script }

/-- The value of a cell. -/
def value (s : Snapshot) (i : Nat) : UInt8 :=
  s.tape.getD i 0

/-- Stores a value in a cell. -/
def store (s : Snapshot) (i : Nat) (v : UInt8) : Snapshot :=
  { s with tape := s.tape.setIfInBounds i v }

/-- Goes on at a position. -/
def goTo (s : Snapshot) (position : Nat) : Status :=
  .running { s with position }

/-- Goes on with the next symbol. -/
def next (s : Snapshot) : Status :=
  s.goTo (s.position + 1)

/-- Stores the next input byte in a cell. -/
def readInto (s : Snapshot) (eof : EofPolicy) (i : Nat) : Status :=
  let served := Streams.serveRead s.script
  let s := { s with script := served.rest, reads := s.reads ++ served.events }
  match served.result, eof with
  | .ok (some b), _ => (s.store i b).next
  | .ok none, .sentinel v => (s.store i v).next
  | .ok none, .fail => .halted (some .inputExhausted) s
  | .error e, _ => .halted (some (.io e)) s

/-- Carries out a symbol with the pointer on cell `i`. -/
def perform (s : Snapshot) (symbols : List Symbol) (eof : EofPolicy) (i : Nat) : Symbol → Status
  | .increment => (s.store i (s.value i + 1)).next
  | .decrement => (s.store i (s.value i - 1)).next
  | .left | .right => s.next
  | .input => s.readInto eof i
  | .output => { s with output := s.output ++ [s.value i] }.next
  | .loopStart =>
    if s.value i = 0 then
      s.goTo (s.position + 1 + partner .loopStart .loopEnd 0 (symbols.drop (s.position + 1)))
    else s.next
  | .loopEnd =>
    if s.value i = 0 then s.next
    else s.goTo (s.position + 1 - partner .loopEnd .loopStart 0 (symbols.take s.position).reverse)

/-- Carries out the symbol at the position. -/
def step (s : Snapshot) (symbols : List Symbol) (eof : EofPolicy) : Status :=
  match symbols[s.position]? with
  | none => .halted none s
  | some .left => { s with pointer := s.pointer - 1 }.next
  | some .right => { s with pointer := s.pointer + 1 }.next
  | some c =>
    let s := { s with steps := s.steps + 1 }
    if 0 ≤ s.pointer ∧ s.pointer < s.tape.size then s.perform symbols eof s.pointer.toNat c
    else .halted (some (.tapeOutOfBounds s.pointer)) s

theorem perform_loopStart (s : Snapshot) (symbols : List Symbol) (eof : EofPolicy) (i : Nat) :
    s.perform symbols eof i .loopStart = s.goTo (if s.value i = 0 then
      s.position + 1 + partner .loopStart .loopEnd 0 (symbols.drop (s.position + 1))
      else s.position + 1) := by
  rw [perform]
  split <;> rfl

theorem perform_loopEnd (s : Snapshot) (symbols : List Symbol) (eof : EofPolicy) (i : Nat) :
    s.perform symbols eof i .loopEnd = s.goTo (if s.value i = 0 then s.position + 1
      else s.position + 1 - partner .loopEnd .loopStart 0 (symbols.take s.position).reverse) := by
  rw [perform]
  split <;> rfl

end Snapshot

/-- Carries out `n` symbols, or fewer if the run is over before. -/
def advance (symbols : List Symbol) (eof : EofPolicy) : Nat → Snapshot → Status
  | 0, s => .running s
  | n + 1, s =>
    match s.step symbols eof with
    | .running s => advance symbols eof n s
    | .halted fault s => .halted fault s

/-- The run from `s` comes to `t`. -/
def Reaches (symbols : List Symbol) (eof : EofPolicy) (s t : Snapshot) : Prop :=
  ∃ n, advance symbols eof n s = .running t

/-- The run from `s` is over at some time, and leaves `e`. -/
def Halts (symbols : List Symbol) (eof : EofPolicy) (s : Snapshot) (fault : Option Fault)
    (e : Snapshot) : Prop :=
  ∃ n, advance symbols eof n s = .halted fault e

/-- The run from `s` is never over. -/
def RunsForever (symbols : List Symbol) (eof : EofPolicy) (s : Snapshot) : Prop :=
  ∀ n, ∃ t, advance symbols eof n s = .running t

theorem Reaches.refl {symbols : List Symbol} {eof : EofPolicy} (s : Snapshot) :
    Reaches symbols eof s s :=
  ⟨0, rfl⟩

theorem Reaches.head {symbols : List Symbol} {eof : EofPolicy} {s t u : Snapshot}
    (h : s.step symbols eof = .running t) (htu : Reaches symbols eof t u) :
    Reaches symbols eof s u := by
  obtain ⟨n, hn⟩ := htu
  exact ⟨n + 1, by simp only [advance, h, hn]⟩

theorem Reaches.trans {symbols : List Symbol} {eof : EofPolicy} {s t u : Snapshot}
    (hst : Reaches symbols eof s t) (htu : Reaches symbols eof t u) : Reaches symbols eof s u := by
  obtain ⟨n, hn⟩ := hst
  induction n generalizing s with
  | zero =>
    obtain rfl := Status.running.inj hn
    exact htu
  | succ n ih =>
    rw [advance] at hn
    cases hstep : s.step symbols eof with
    | running s' =>
      rw [hstep] at hn
      exact (ih hn).head hstep
    | halted fault e =>
      rw [hstep] at hn
      cases hn

theorem Halts.of_step {symbols : List Symbol} {eof : EofPolicy} {s e : Snapshot}
    {fault : Option Fault} (h : s.step symbols eof = .halted fault e) :
    Halts symbols eof s fault e :=
  ⟨1, by rw [advance, h]⟩

theorem halts_iff_of_step {symbols : List Symbol} {eof : EofPolicy} {s t e : Snapshot}
    {fault : Option Fault} (h : s.step symbols eof = .running t) :
    Halts symbols eof s fault e ↔ Halts symbols eof t fault e := by
  constructor
  · rintro ⟨n, hn⟩
    cases n with
    | zero => cases hn
    | succ n =>
      rw [advance, h] at hn
      exact ⟨n, hn⟩
  · rintro ⟨n, hn⟩
    exact ⟨n + 1, by simp only [advance, h, hn]⟩

/-- A run that is over has come to its last step. -/
theorem halts_iff_exists_last {symbols : List Symbol} {eof : EofPolicy} {s e : Snapshot}
    {fault : Option Fault} :
    Halts symbols eof s fault e ↔
      ∃ t, Reaches symbols eof s t ∧ t.step symbols eof = .halted fault e := by
  constructor
  · rintro ⟨n, hn⟩
    induction n generalizing s with
    | zero => cases hn
    | succ n ih =>
      rw [advance] at hn
      cases hstep : s.step symbols eof with
      | running s' =>
        rw [hstep] at hn
        obtain ⟨t, ht, hlast⟩ := ih hn
        exact ⟨t, ht.head hstep, hlast⟩
      | halted fault' e' =>
        rw [hstep] at hn
        obtain ⟨rfl, rfl⟩ := Status.halted.inj hn
        exact ⟨s, .refl s, hstep⟩
  · rintro ⟨t, ⟨n, hn⟩, hlast⟩
    induction n generalizing s with
    | zero =>
      obtain rfl := Status.running.inj hn
      exact .of_step hlast
    | succ n ih =>
      rw [advance] at hn
      cases hstep : s.step symbols eof with
      | running s' =>
        rw [hstep] at hn
        exact (halts_iff_of_step hstep).mpr (ih hn)
      | halted fault' e' =>
        rw [hstep] at hn
        cases hn

theorem runsForever_iff {symbols : List Symbol} {eof : EofPolicy} {s : Snapshot} :
    RunsForever symbols eof s ↔ ¬∃ fault e, Halts symbols eof s fault e := by
  constructor
  · rintro h ⟨fault, e, n, hn⟩
    obtain ⟨t, ht⟩ := h n
    rw [ht] at hn
    cases hn
  · intro h n
    cases hn : advance symbols eof n s with
    | running t => exact ⟨t, rfl⟩
    | halted fault e => exact absurd ⟨fault, e, n, hn⟩ h

/-! ## Facts about brackets -/

variable {own other : Symbol}

/-- Symbols that leave the number of open brackets as it is, and close none from before them. -/
def Neutral (own other : Symbol) (symbols : List Symbol) : Prop :=
  ∀ depth, depth? own other depth symbols = some depth

theorem depth?_append (depth : Nat) (xs ys : List Symbol) :
    depth? own other depth (xs ++ ys) =
      (depth? own other depth xs).bind (depth? own other · ys) := by
  induction xs generalizing depth with
  | nil => rfl
  | cons x xs ih =>
    rw [List.cons_append, depth?, depth?]
    by_cases hother : x = other
    · rw [if_pos hother, if_pos hother]
      by_cases hdepth : depth = 0
      · rw [if_pos hdepth, if_pos hdepth, Option.bind_none]
      · rw [if_neg hdepth, if_neg hdepth]
        exact ih _
    · rw [if_neg hother, if_neg hother]
      exact ih _

theorem Neutral.nil : Neutral own other [] := fun _ => rfl

theorem Neutral.append {xs ys : List Symbol} (hxs : Neutral own other xs)
    (hys : Neutral own other ys) :
    Neutral own other (xs ++ ys) := by
  intro depth
  rw [depth?_append, hxs depth]
  exact hys depth

/-- A symbol that is not a bracket. -/
theorem Neutral.singleton {s : Symbol} (hown : s ≠ own) (hother : s ≠ other) :
    Neutral own other [s] := by
  intro depth
  rw [depth?, if_neg hother, if_neg hown]
  rfl

/-- A pair of brackets around neutral symbols. -/
theorem Neutral.pair {xs : List Symbol} (hxs : Neutral own other xs) (hne : own ≠ other) :
    Neutral own other (own :: (xs ++ [other])) := by
  intro depth
  rw [depth?, if_neg hne, if_pos rfl, depth?_append, hxs (depth + 1), Option.bind_some, depth?,
    if_pos rfl, if_neg (Nat.succ_ne_zero depth)]
  rfl

/-- The partner of a bracket is looked for behind neutral symbols. -/
theorem partner_append {depth depth' : Nat} {xs : List Symbol} (ys : List Symbol)
    (h : depth? own other depth xs = some depth') :
    partner own other depth (xs ++ ys) = xs.length + partner own other depth' ys := by
  induction xs generalizing depth with
  | nil =>
    obtain rfl := Option.some.inj h
    simp
  | cons x xs ih =>
    rw [depth?] at h
    rw [List.cons_append, partner, List.length_cons]
    by_cases hother : x = other
    · rw [if_pos hother] at h ⊢
      by_cases hdepth : depth = 0
      · rw [if_pos hdepth] at h
        cases h
      · rw [if_neg hdepth] at h ⊢
        have hrest := ih h
        omega
    · rw [if_neg hother] at h ⊢
      have hrest := ih h
      omega

/-- **A bracket and its partner stand around neutral symbols.** -/
theorem partner_of_neutral {xs : List Symbol} (h : Neutral own other xs) (ys : List Symbol) :
    partner own other 0 (xs ++ other :: ys) = xs.length + 1 := by
  rw [partner_append _ (h 0), partner, if_pos rfl, if_pos rfl]

example :
    partner .loopStart .loopEnd 0 [.loopStart, .loopEnd, .increment, .loopEnd, .output] = 4 := by
  decide

end Language

end Tapecode
