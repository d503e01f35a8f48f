import Tapecode.Proofs.Output

/-!
# Torn writes

A write of a batch may fail when the sink has taken a part of the batch already: the write is torn.
The console keeps the whole batch pending then, and the last write of the execution offers all of it
again, so that the part is delivered twice. This is the only way in which a byte is delivered twice.

* `Streams.serveWrite_fate` says what can come of a batch: it is delivered, or refused, or torn.
* `Console.Carries` is the account of a console: the bytes it was given are those delivered, followed
  by those pending, of which a part may have been taken. Every call on the console keeps the account,
  and a part is taken only if the call fails (`Console.flush_carries`, `Console.push_carries`,
  `Console.readByte_carries`).
* `Machine.advance_accounts` carries this through a run, which a torn write ends.

`output_repeated_only_if_torn` is the result for whole executions, and
`output_repeated_after_torn_write` an execution that does deliver a byte twice.
-/

namespace Tapecode

/-- Calls that try to write `bytes` and fail without having delivered any of them. -/
inductive Refused (bytes : List UInt8) : List Event → Prop
  | failed : Refused bytes [.write bytes .failed]
  | nothingAccepted : Refused bytes [.write bytes (.accepted 0)]
  | interrupted {calls : List Event} (h : Refused bytes calls) :
      Refused bytes (.write bytes .interrupted :: calls)

theorem Refused.accepted_eq_nil {bytes : List UInt8} {calls : List Event}
    (h : Refused bytes calls) : calls.flatMap Event.accepted = [] := by
  induction h with
  | failed => rfl
  | nothingAccepted => rfl
  | interrupted h ih => exact ih

/-- Calls of which the last ones are a write that was accepted in part and then the failure to write
the rest. -/
def EndsTorn (calls : List Event) : Prop :=
  ∃ before offered count after, calls = before ++ .write offered (.accepted count) :: after ∧
    0 < count ∧ count < offered.length ∧ Refused (offered.drop count) after

theorem EndsTorn.append {calls : List Event} (h : EndsTorn calls) (before : List Event) :
    EndsTorn (before ++ calls) := by
  obtain ⟨before', offered, count, after, rfl, hshort⟩ := h
  exact ⟨before ++ before', offered, count, after, by simp, hshort⟩

/-! ## Batches -/

/-- What can come of writing a batch, and the calls that are made for it. -/
inductive Fate (batch : List UInt8) : Except StreamError Unit → List Event → Prop
  | delivered {calls : List Event} (h : calls.flatMap Event.accepted = batch) :
      Fate batch (.ok ()) calls
  | refused {e : StreamError} {calls : List Event} (h : Refused batch calls) :
      Fate batch (.error e) calls
  | torn {e : StreamError} {calls : List Event} (h : EndsTorn calls)
      (hsome : calls.flatMap Event.accepted ≠ [])
      (hpart : calls.flatMap Event.accepted <+: batch) : Fate batch (.error e) calls

namespace Fate

variable {batch : List UInt8} {result : Except StreamError Unit} {calls : List Event}

theorem interrupted (h : Fate batch result calls) :
    Fate batch result (.write batch .interrupted :: calls) := by
  cases h with
  | delivered h => exact .delivered h
  | refused h => exact .refused h.interrupted
  | torn h hsome hpart => exact .torn (h.append [_]) hsome hpart

/-- A write that takes some of the bytes makes a failure of the rest a torn write. -/
theorem short {count : Nat} (hpos : 0 < count) (hlt : count < batch.length)
    (h : Fate (batch.drop count) result calls) :
    Fate batch result (.write batch (.accepted count) :: calls) := by
  have haccepted : List.flatMap Event.accepted (.write batch (.accepted count) :: calls) =
      batch.take count ++ calls.flatMap Event.accepted := rfl
  have hsome : batch.take count ++ calls.flatMap Event.accepted ≠ [] := by
    apply List.ne_nil_of_length_pos
    simp only [List.length_append, List.length_take]
    omega
  have hpart (h : calls.flatMap Event.accepted <+: batch.drop count) :
      batch.take count ++ calls.flatMap Event.accepted <+: batch := by
    have happend := (List.prefix_append_right_inj (batch.take count)).mpr h
    rwa [List.take_append_drop] at happend
  cases h with
  | delivered h => exact .delivered (by rw [haccepted, h, List.take_append_drop])
  | refused h =>
    refine .torn ⟨[], batch, count, calls, rfl, hpos, hlt, h⟩ (haccepted ▸ hsome) ?_
    rw [haccepted]
    exact hpart (by simp [h.accepted_eq_nil])
  | torn h _ hrest =>
    refine .torn (h.append [_]) (haccepted ▸ hsome) ?_
    rw [haccepted]
    exact hpart hrest

end Fate

/-- **Every batch is delivered, refused or torn.** -/
theorem Streams.serveWrite_fate (replies : List WriteReply) (batch : List UInt8) :
    Fate batch (serveWrite replies batch).result (serveWrite replies batch).events := by
  induction replies, batch using serveWrite.induct with
  | case1 replies =>
    rw [serveWrite]
    exact .delivered rfl
  | case2 batch hbatch =>
    rw [serveWrite]
    · exact .delivered (by simp [Event.accepted])
    · exact hbatch
  | case3 rest batch hbatch =>
    rw [serveWrite]
    · exact .delivered (by simp [Event.accepted])
    · exact hbatch
  | case4 rest batch hbatch =>
    rw [serveWrite]
    · exact .refused .failed
    · exact hbatch
  | case5 rest batch hbatch ih =>
    rw [serveWrite]
    · exact ih.interrupted
    · exact hbatch
  | case6 rest batch hbatch =>
    rw [serveWrite]
    · exact .refused .nothingAccepted
    · exact hbatch
  | case7 count rest batch hbatch hcount ih =>
    rw [serveWrite]
    · by_cases hlt : count < batch.length
      · rw [Nat.min_eq_left (Nat.le_of_lt hlt)]
        exact ih.short (Nat.pos_of_ne_zero hcount) hlt
      · -- the whole batch is taken, and nothing is left to write
        have hdrop : batch.drop count = [] := List.drop_eq_nil_of_le (Nat.le_of_not_lt hlt)
        simp only [hdrop, serveWrite]
        exact .delivered (by simp [Event.accepted, Nat.le_of_not_lt hlt])
    · exact hcount
    · exact hbatch

theorem Streams.accepted_of_calls {s s' : Streams} {calls : List Event}
    (h : s'.events.toList = s.events.toList ++ calls) :
    s'.accepted = s.accepted ++ calls.flatMap Event.accepted := by
  simp [accepted, h]

theorem Streams.accepted_flush (s : Streams) : s.flush.2.accepted = s.accepted := by
  unfold flush
  split <;> simp [accepted, Event.accepted]

theorem Streams.accepted_readByte (s : Streams) : s.readByte.2.accepted = s.accepted := by
  simp [readByte, accepted, (events_serveRead s.reads).1]

/-! ## The console -/

namespace Console

/-- The account of a console that was given the bytes `printed` when the sink had accepted `base`:
some of them have been delivered, the others are pending, and of those pending the bytes `part` have
been accepted already. -/
structure Carries (c : Console) (base printed part : List UInt8) : Prop where
  exists_delivered : ∃ delivered, printed = delivered ++ c.pending.toList ∧
    c.streams.accepted = base ++ (delivered ++ part)
  part_isPrefix : part <+: c.pending.toList

/-- The account of a console after a torn write. -/
def Torn (base printed : List UInt8) (c : Console) : Prop :=
  ∃ part, part ≠ [] ∧ c.Carries base printed part ∧ EndsTorn c.streams.events.toList

variable {c : Console} {base printed part : List UInt8}

/-- **A flush delivers what is pending, or fails to and keeps it pending.** -/
theorem flush_cases (c : Console) :
    (c.flush.2.pending = #[] ∧
      c.flush.2.streams.accepted = c.streams.accepted ++ c.pending.toList) ∨
    ∃ e calls, c.flush.1 = .error e ∧ c.flush.2.pending = c.pending ∧
      c.flush.2.streams.events.toList = c.streams.events.toList ++ calls ∧
      Fate c.pending.toList (.error e) calls := by
  by_cases hpending : c.pending.isEmpty = true
  · have hempty : c.pending = #[] := Array.isEmpty_iff.mp hpending
    rw [flush, if_pos hpending]
    exact .inl ⟨hempty, by simp [flushStreams, Streams.accepted_flush, hempty]⟩
  · have hfate := Streams.serveWrite_fate c.streams.writes c.pending.toList
    rw [flush, if_neg hpending]
    cases hresult : (Streams.serveWrite c.streams.writes c.pending.toList).result with
    | ok =>
      rw [hresult] at hfate
      cases hfate with
      | delivered haccepted =>
        left
        simp only [Streams.writeAll, hresult, flushStreams, Streams.accepted_flush]
        simp [Streams.accepted, haccepted]
    | error e =>
      rw [hresult] at hfate
      right
      refine ⟨e, _, ?_, ?_, ?_, hfate⟩
      · simp only [Streams.writeAll, hresult]
      · simp only [Streams.writeAll, hresult]
      · simp [Streams.writeAll, hresult]

/-- A flush delivers a prefix of what is pending. -/
theorem flush_takes (c : Console) :
    ∃ taken, taken <+: c.pending.toList ∧
      c.flush.2.streams.accepted = c.streams.accepted ++ taken := by
  rcases c.flush_cases with ⟨-, haccepted⟩ | ⟨e, calls, -, -, hevents, hfate⟩
  · exact ⟨_, List.prefix_rfl, haccepted⟩
  · refine ⟨calls.flatMap Event.accepted, ?_, ?_⟩
    · cases hfate with
      | refused h => simp [h.accepted_eq_nil]
      | torn _ _ hpart => exact hpart
    · exact Streams.accepted_of_calls hevents

/-- **A flush keeps the account**, and fails if a part is taken. -/
theorem flush_carries (h : c.Carries base printed []) :
    c.flush.2.Carries base printed [] ∨
      (∃ e, c.flush.1 = .error e) ∧ c.flush.2.Torn base printed := by
  obtain ⟨⟨delivered, hprinted, haccepted⟩, -⟩ := h
  rcases c.flush_cases with ⟨hpending', haccepted'⟩ | ⟨e, calls, hresult, hpending', hevents, hfate⟩
  · left
    refine ⟨⟨printed, ?_, ?_⟩, List.nil_prefix⟩
    · simp [hpending']
    · rw [haccepted', haccepted, hprinted]
      simp
  · have hcarries (hpart : calls.flatMap Event.accepted <+: c.pending.toList) :
        c.flush.2.Carries base printed (calls.flatMap Event.accepted) := by
      refine ⟨⟨delivered, ?_, ?_⟩, ?_⟩
      · rw [hpending', hprinted]
      · rw [Streams.accepted_of_calls hevents, haccepted]
        simp
      · rwa [hpending']
    cases hfate with
    | refused hrefused =>
      left
      rw [hrefused.accepted_eq_nil] at hcarries
      exact hcarries List.nil_prefix
    | torn htorn hsome hpart =>
      right
      refine ⟨⟨e, hresult⟩, _, hsome, hcarries hpart, ?_⟩
      rw [hevents]
      exact htorn.append _

theorem push_carries (h : c.Carries base printed []) (b : UInt8) :
    (c.push b).2.Carries base (printed ++ [b]) [] ∨
      (∃ e, (c.push b).1 = .error e) ∧ (c.push b).2.Torn base (printed ++ [b]) := by
  have hadded : { c with pending := c.pending.push b }.Carries base (printed ++ [b]) [] := by
    obtain ⟨⟨delivered, hprinted, haccepted⟩, -⟩ := h
    exact ⟨⟨delivered, by simp [hprinted], haccepted⟩, List.nil_prefix⟩
  simp only [push]
  split
  · exact flush_carries hadded
  · exact .inl hadded

theorem readByte_carries (h : c.Carries base printed []) :
    c.readByte.2.Carries base printed [] ∨
      (∃ e, c.readByte.1 = .error e) ∧ c.readByte.2.Torn base printed := by
  have hflush := flush_carries h
  unfold readByte
  split
  · rename_i e c' heq
    rw [heq] at hflush
    simpa using hflush
  · rename_i c' heq
    rw [heq] at hflush
    rcases hflush with hcarries | ⟨⟨e, he⟩, -⟩
    · left
      obtain ⟨⟨delivered, hprinted, haccepted⟩, -⟩ := hcarries
      refine ⟨⟨delivered, hprinted, ?_⟩, List.nil_prefix⟩
      rw [← haccepted]
      exact c'.streams.accepted_readByte
    · cases he

end Console

/-! ## Runs -/

/-- The console of a run carries what was printed, unless a torn write has ended the run. -/
def Progress.Accounts (base printed : List UInt8) (p : Progress) : Prop :=
  p.machine.console.Carries base printed [] ∨
    ∃ e m, p = .halted (some (.io e)) m ∧ m.console.Torn base printed

namespace Machine

variable {m : Machine} {base printed : List UInt8}

theorem readInto_accounts (h : m.console.Carries base printed []) (eof : EofPolicy) (i : Nat) :
    (m.readInto eof i).Accounts base printed := by
  have hread := Console.readByte_carries h
  rcases hresult : m.console.readByte with ⟨result, c⟩
  simp only [readInto, hresult] at hread ⊢
  rcases hread with hcarries | ⟨⟨e, rfl⟩, htorn⟩
  · left
    split <;> exact hcarries
  · exact .inr ⟨e, _, rfl, htorn⟩

theorem writeFrom_accounts (h : m.console.Carries base printed []) (i : Nat) :
    (m.writeFrom i).Accounts base (printed ++ [m.value i]) := by
  have hpush := Console.push_carries h (m.value i)
  rcases hresult : m.console.push (m.value i) with ⟨result, c⟩
  simp only [writeFrom, hresult] at hpush ⊢
  rcases hpush with hcarries | ⟨⟨e, rfl⟩, htorn⟩
  · left
    split <;> exact hcarries
  · exact .inr ⟨e, _, rfl, htorn⟩

variable (code : Array Word) (settings : Settings)

/-- **A step keeps the account**, and ends the run if it tears a write. -/
theorem step_accounts (h : m.console.Carries base printed []) :
    (m.step code settings).Accounts base (printed ++ (m.printed? code settings).toList) := by
  have hsilent : m.console.Carries base (printed ++ []) [] := by rwa [List.append_nil]
  rw [step_eq_plan, printed?]
  cases m.plan code settings with
  | stop fault => exact .inl hsilent
  | miss fault => exact .inl hsilent
  | carryOut i op =>
    have hconsole := m.counted.perform_console code.size settings.eof i op
    cases op with
    | input o => exact readInto_accounts (m := m.counted) hsilent settings.eof i
    | output o => exact writeFrom_accounts (m := m.counted) h i
    | change o x | set o x | jumpIfZero o x | jumpIfNotZero o x =>
      left
      rw [hconsole]
      exact hsilent

/-- **A run keeps the account** of what its steps print, unless a torn write ends it. -/
theorem advance_accounts (n : Nat) (h : m.console.Carries base printed []) :
    (advance code settings n m).Accounts base (printed ++ output code settings n m) := by
  induction n generalizing m printed with
  | zero => exact .inl (by simpa [advance, output] using h)
  | succ n ih =>
    have hstep := step_accounts code settings h
    rw [advance, output]
    cases hm : m.step code settings with
    | running m' =>
      rw [hm] at hstep
      rcases hstep with hcarries | ⟨e, last, hhalted, -⟩
      · have hrest := ih hcarries
        rwa [List.append_assoc] at hrest
      · cases hhalted
    | halted fault e =>
      rw [hm] at hstep
      simpa using hstep

/-- What the sink has accepted after the last write of a run that no torn write has ended. -/
theorem accepted_finish {last : Machine} (h : last.console.Carries base printed [])
    (cause : Option Fault) :
    ∃ delivered, (last.finish cause).2.console.streams.accepted = base ++ delivered ∧
      delivered <+: printed := by
  obtain ⟨⟨delivered, hprinted, haccepted⟩, -⟩ := h
  obtain ⟨taken, htaken, hflush⟩ := last.console.flush_takes
  refine ⟨delivered ++ taken, ?_, ?_⟩
  · rw [finish_snd, hflush, haccepted]
    simp
  · rw [hprinted]
    exact (List.prefix_append_right_inj delivered).mpr htaken

/-- After a torn write, the last write offers the whole batch again. -/
theorem accepted_finish_of_torn {last : Machine} (h : last.console.Torn base printed)
    (cause : Option Fault) :
    EndsTorn last.calls ∧ ∃ delivered batch part again, printed = delivered ++ batch ∧
      part ≠ [] ∧ part <+: batch ∧ again <+: batch ∧
      (last.finish cause).2.console.streams.accepted = base ++ (delivered ++ part ++ again) := by
  obtain ⟨part, hsome, ⟨⟨delivered, hprinted, haccepted⟩, hpart⟩, hcalls⟩ := h
  obtain ⟨again, hagain, hflush⟩ := last.console.flush_takes
  refine ⟨hcalls, delivered, _, part, again, hprinted, hsome, hpart, hagain, ?_⟩
  rw [finish_snd, hflush, haccepted]
  simp

end Machine

/-- **A byte is delivered twice only after a torn write.** While a run goes on, on any sink, the sink
has accepted a prefix of the bytes that the steps so far have printed. When the run is over and the
last write has been made, this is still so, unless the run was ended by a write that failed when a
part of its batch had been accepted. In that case the sink has accepted what was delivered before,
that part, and then once more a prefix of the same batch. -/
theorem output_repeated_only_if_torn (code : Bytecode) (settings : Settings) (streams : Streams) :
    (∀ n mid,
      Machine.advance code.toArray settings n (.load settings streams) = .running mid →
      ∃ delivered, mid.console.streams.accepted = streams.accepted ++ delivered ∧
        delivered <+: Machine.output code.toArray settings n (.load settings streams)) ∧
    ∀ n cause last,
      Machine.advance code.toArray settings n (.load settings streams) = .halted cause last →
      (∃ delivered,
        (last.finish cause).2.console.streams.accepted = streams.accepted ++ delivered ∧
        delivered <+: Machine.output code.toArray settings n (.load settings streams)) ∨
      (∃ e, cause = some (.io e)) ∧ EndsTorn last.calls ∧
        ∃ delivered batch part again,
          Machine.output code.toArray settings n (.load settings streams) = delivered ++ batch ∧
          part ≠ [] ∧ part <+: batch ∧ again <+: batch ∧
          (last.finish cause).2.console.streams.accepted =
            streams.accepted ++ (delivered ++ part ++ again) := by
  have hload : (Machine.load settings streams).console.Carries streams.accepted [] [] :=
    ⟨⟨[], rfl, by simp [Machine.load]⟩, List.nil_prefix⟩
  have haccounts (n : Nat) := Machine.advance_accounts code.toArray settings n hload
  constructor
  · intro n mid hrun
    rcases hrun ▸ haccounts n with hcarries | ⟨e, last, hhalted, -⟩
    · obtain ⟨⟨delivered, hprinted, haccepted⟩, -⟩ := hcarries
      exact ⟨delivered, by simpa using haccepted, _, hprinted.symm⟩
    · cases hhalted
  · intro n cause last hrun
    rcases hrun ▸ haccounts n with hcarries | ⟨e, last', hhalted, htorn⟩
    · exact .inl (Machine.accepted_finish hcarries cause)
    · obtain ⟨rfl, rfl⟩ := Progress.halted.inj hhalted
      exact .inr ⟨⟨e, rfl⟩, Machine.accepted_finish_of_torn htorn _⟩

/-- The code prints a one and a two in one batch. The sink takes the one and then fails. -/
theorem output_repeated_only_if_torn_of_short_write :
    ∃ last, Machine.advance
        ([Op.change 0 1, .output 0, .change 0 1, .output 0].flatMap Op.words).toArray
        { tapeSize := 1, flushThreshold := 1 } 4
        (.load { tapeSize := 1, flushThreshold := 1 } { writes := [.atMost 1, .failed] }) =
          .halted (some (.io .writeFailed)) last ∧
      EndsTorn last.calls := by
  obtain ⟨last, hrun, hlast⟩ : ∃ last, Machine.advance
      ([Op.change 0 1, .output 0, .change 0 1, .output 0].flatMap Op.words).toArray
      { tapeSize := 1, flushThreshold := 1 } 4
      (.load { tapeSize := 1, flushThreshold := 1 } { writes := [.atMost 1, .failed] }) =
        .halted (some (.io .writeFailed)) last ∧
      (last.finish (some (.io .writeFailed))).2.console.streams.accepted = [1, 1, 2] :=
    ⟨_, rfl, rfl⟩
  refine ⟨last, hrun, ?_⟩
  rcases (output_repeated_only_if_torn _ _ _).2 4 _ last hrun with
    ⟨delivered, haccepted, hprefix⟩ | ⟨-, htorn, -⟩
  · rw [hlast] at haccepted
    obtain rfl : [1, 1, 2] = delivered := haccepted
    exact absurd hprefix (by decide)
  · exact htorn

/-- The same execution delivers the one twice: when it is over, the sink has accepted a one, a one
and a two, which is no prefix of what was printed. -/
theorem output_repeated_after_torn_write :
    ∃ last m, Machine.advance
        ([Op.change 0 1, .output 0, .change 0 1, .output 0].flatMap Op.words).toArray
        { tapeSize := 1, flushThreshold := 1 } 4
        (.load { tapeSize := 1, flushThreshold := 1 } { writes := [.atMost 1, .failed] }) =
          .halted (some (.io .writeFailed)) last ∧
      last.finish (some (.io .writeFailed)) = (some (.io .writeFailed), m) ∧
      m.console.streams.accepted = [1, 1, 2] ∧
      Machine.output ([Op.change 0 1, .output 0, .change 0 1, .output 0].flatMap Op.words).toArray
        { tapeSize := 1, flushThreshold := 1 } 4
        (.load { tapeSize := 1, flushThreshold := 1 } { writes := [.atMost 1, .failed] }) = [1, 2] ∧
      ¬[1, 1, 2] <+: [1, 2] :=
  ⟨_, _, rfl, rfl, rfl, rfl, by decide⟩

end Tapecode
