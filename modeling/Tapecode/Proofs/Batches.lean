import Mathlib.Data.List.Basic
import Tapecode.Proofs.TornWrites

/-!
# Batches

A program prints by two calls on its console: it pushes a byte, or it flushes. Each of them may make
one attempt to write what is pending (`Console.attemptFor?`), and the sink may do anything with it:
take it in parts, refuse it, or take a part and fail. The calls go on after a failure.

`Console.Ledger` is the account of some calls. The bytes that were pending or have been pushed since
are those of the batches that were written whole, followed by what is pending now; and the sink has
accepted these batches and, for each attempt that failed, some prefix of its batch. One flush keeps
the account (`Console.Ledger.flush`), hence one push (`Console.Ledger.push`), hence any sequence of
calls (`Console.Ledger.calls`).

`output_buffer_exact` is the result for a new console. If no write is refused, nothing but what is
pending is outstanding, and this is never more than the threshold allows. On a sink that does not fail
this is so at any time of a run (`Machine.steady_of_reaches`).
-/

namespace Tapecode

/-! ## Calls and attempts -/

/-- A call by which a program prints. -/
inductive OutputCall
  /-- One more byte. -/
  | push (b : UInt8)
  /-- Write all that is pending, and flush the streams. -/
  | flush
  deriving DecidableEq, Repr

/-- The bytes that are pushed by some calls. -/
def OutputCall.pushed (calls : List OutputCall) : List UInt8 :=
  calls.flatMap fun
    | push b => [b]
    | flush => []

theorem OutputCall.pushed_cons (call : OutputCall) (rest : List OutputCall) :
    pushed (call :: rest) = pushed [call] ++ pushed rest := by
  simp [pushed]

/-- An attempt to write a batch. -/
structure Attempt where
  /-- The bytes that were pending. -/
  batch : List UInt8
  result : Except StreamError Unit
  /-- The writes that were made, with their results. -/
  writes : List Event

namespace Attempt

/-- Whether the whole batch was written. -/
def succeeded (a : Attempt) : Bool :=
  a.result matches .ok _

/-- The bytes that the sink accepted in the attempt. -/
def taken (a : Attempt) : List UInt8 :=
  a.writes.flatMap Event.accepted

/-- The bytes that are not pending any more after the attempt. -/
def delivered (a : Attempt) : List UInt8 :=
  if a.succeeded then a.batch else []

theorem flatMap_delivered (attempts : List Attempt) :
    attempts.flatMap delivered = (attempts.filter succeeded).flatMap batch := by
  induction attempts with
  | nil => rfl
  | cons a rest ih => cases ha : a.succeeded <;> simp [delivered, ha, ih]

end Attempt

namespace Event

/-- Whether an event is a write. -/
def isWrite : Event → Bool
  | write _ _ => true
  | read _ | flush _ => false

/-- Whether an event is a write that fails or that accepts nothing. -/
def isRefusal : Event → Bool
  | write _ .failed | write _ (.accepted 0) => true
  | write _ (.accepted (_ + 1)) | write _ .interrupted | read _ | flush _ => false

end Event

/-- The writes so far, with their results. -/
def Streams.writeEvents (s : Streams) : List Event :=
  s.events.toList.filter Event.isWrite

namespace Console

/-- An attempt to write all that is pending. -/
def wholeAttempt (c : Console) : Attempt where
  batch := c.pending.toList
  result := (Streams.serveWrite c.streams.writes c.pending.toList).result
  writes := (Streams.serveWrite c.streams.writes c.pending.toList).events

/-- The attempt that a flush makes, if anything is pending. -/
def attempt? (c : Console) : Option Attempt :=
  if c.pending.isEmpty then none else some c.wholeAttempt

/-- The console with one more byte pending. -/
def withPending (c : Console) (b : UInt8) : Console :=
  { c with pending := c.pending.push b }

/-- The attempt that a call makes. A push makes none as long as the threshold is not passed. -/
def attemptFor? (c : Console) : OutputCall → Option Attempt
  | .push b =>
    if c.threshold < (c.withPending b).pending.size then (c.withPending b).attempt? else none
  | .flush => c.attempt?

/-- Makes a call. -/
def respond (c : Console) : OutputCall → Except StreamError Unit × Console
  | .push b => c.push b
  | .flush => c.flush

/-- The console after some calls, whatever they have answered. -/
def afterCalls (c : Console) : List OutputCall → Console
  | [] => c
  | call :: rest => (c.respond call).2.afterCalls rest

/-- The attempts that some calls make, in order. -/
def attempts (c : Console) : List OutputCall → List Attempt
  | [] => []
  | call :: rest => (c.attemptFor? call).toList ++ (c.respond call).2.attempts rest

/-! ## The account of a console -/

/-- The account of what happened between two states of a console, if `pushed` are the bytes that were
pushed meanwhile. -/
structure Ledger (c c' : Console) (pushed : List UInt8) (attempts : List Attempt) : Prop where
  pending : c.pending.toList ++ pushed = attempts.flatMap Attempt.delivered ++ c'.pending.toList
  accepted : c'.streams.accepted = c.streams.accepted ++ attempts.flatMap Attempt.taken
  writes : c'.streams.writeEvents = c.streams.writeEvents ++ attempts.flatMap Attempt.writes
  fate : ∀ a ∈ attempts, Fate a.batch a.result a.writes
  threshold : c'.threshold = c.threshold

end Console

/-- Writing makes writes only. -/
theorem Streams.isWrite_of_serveWrite (replies : List WriteReply) (batch : List UInt8) :
    ∀ e ∈ (serveWrite replies batch).events, e.isWrite = true := by
  fun_induction serveWrite replies batch with
  | case1 replies => simp
  | case2 batch hbatch => simp [Event.isWrite]
  | case3 rest batch hbatch => simp [Event.isWrite]
  | case4 rest batch hbatch => simp [Event.isWrite]
  | case5 rest batch hbatch later ih => exact List.forall_mem_cons.mpr ⟨rfl, ih⟩
  | case6 rest batch hbatch => simp [Event.isWrite]
  | case7 count rest batch hbatch hcount later ih => exact List.forall_mem_cons.mpr ⟨rfl, ih⟩

theorem Streams.writeEvents_flush (s : Streams) : s.flush.2.writeEvents = s.writeEvents := by
  unfold flush
  split <;> simp [writeEvents, Event.isWrite]

/-- A flush writes what is pending, and clears it and flushes the streams if this succeeds. -/
theorem Console.flush_eq (c : Console) (hpending : c.pending.isEmpty = false) :
    c.flush.2 =
      if c.wholeAttempt.succeeded then
        ({ c with pending := #[], streams := (c.streams.writeAll c.pending.toList).2 } :
          Console).flushStreams.2
      else { c with streams := (c.streams.writeAll c.pending.toList).2 } := by
  rw [flush, if_neg (by simp [hpending])]
  cases hresult : (Streams.serveWrite c.streams.writes c.pending.toList).result with
  | ok u => simp [Attempt.succeeded, wholeAttempt, Streams.writeAll, hresult]
  | error e => simp [Attempt.succeeded, wholeAttempt, Streams.writeAll, hresult]

theorem Console.push_eq (c : Console) (b : UInt8) :
    c.push b =
      if c.threshold < (c.withPending b).pending.size then (c.withPending b).flush
      else (.ok (), c.withPending b) :=
  rfl

namespace Console.Ledger

variable {c c' c'' : Console} {pushed pushed' : List UInt8} {attempts attempts' : List Attempt}

theorem refl (c : Console) : Ledger c c [] [] where
  pending := by simp
  accepted := by simp
  writes := by simp
  fate := by simp
  threshold := rfl

/-- The accounts of what happened in sequence. -/
theorem trans (h : Ledger c c' pushed attempts) (h' : Ledger c' c'' pushed' attempts') :
    Ledger c c'' (pushed ++ pushed') (attempts ++ attempts') where
  pending := by
    rw [← List.append_assoc, h.pending, List.append_assoc, h'.pending, List.flatMap_append,
      List.append_assoc]
  accepted := by rw [h'.accepted, h.accepted, List.flatMap_append, List.append_assoc]
  writes := by rw [h'.writes, h.writes, List.flatMap_append, List.append_assoc]
  fate := List.forall_mem_append.mpr ⟨h.fate, h'.fate⟩
  threshold := h'.threshold.trans h.threshold

/-- Flushing the streams is not an attempt to write. -/
theorem flushStreams (h : Ledger c c' pushed attempts) :
    Ledger c c'.flushStreams.2 pushed attempts where
  pending := h.pending
  accepted := by
    rw [← h.accepted]
    exact c'.streams.accepted_flush
  writes := by
    rw [← h.writes]
    exact c'.streams.writeEvents_flush
  fate := h.fate
  threshold := h.threshold

/-- The account of an attempt after which `pending` is left. -/
theorem writeAll (c : Console) {pending : Array UInt8}
    (hpending : c.pending.toList = c.wholeAttempt.delivered ++ pending.toList) :
    Ledger c { c with pending, streams := (c.streams.writeAll c.pending.toList).2 } []
      [c.wholeAttempt] where
  pending := by simpa using hpending
  accepted := by simp [Streams.writeAll, Streams.accepted, Attempt.taken, wholeAttempt]
  writes := by
    have hwrites := Streams.isWrite_of_serveWrite c.streams.writes c.pending.toList
    simp [Streams.writeAll, Streams.writeEvents, wholeAttempt, List.filter_eq_self.mpr hwrites]
  fate := List.forall_mem_singleton.mpr (Streams.serveWrite_fate _ _)
  threshold := rfl

/-- **A flush keeps the account**, with at most one attempt. -/
theorem flush (c : Console) : Ledger c c.flush.2 [] c.attempt?.toList := by
  rw [attempt?]
  cases hpending : c.pending.isEmpty with
  | true =>
    rw [Console.flush, if_pos hpending]
    exact (refl c).flushStreams
  | false =>
    rw [flush_eq c hpending]
    cases hsucceeded : c.wholeAttempt.succeeded with
    | true =>
      have hdelivered : c.wholeAttempt.delivered = c.pending.toList := if_pos hsucceeded
      exact (writeAll c (by simp [hdelivered])).flushStreams
    | false =>
      have hdelivered : c.wholeAttempt.delivered = [] := if_neg (by simp [hsucceeded])
      exact writeAll c (by simp [hdelivered])

/-- A byte that is pushed is pending at first. -/
theorem withPending (c : Console) (b : UInt8) : Ledger c (c.withPending b) [b] [] where
  pending := by simp [Console.withPending]
  accepted := by simp [Console.withPending]
  writes := by simp [Console.withPending]
  fate := by simp
  threshold := rfl

/-- **Every call keeps the account**, with at most one attempt. -/
theorem respond (c : Console) (call : OutputCall) :
    Ledger c (c.respond call).2 (OutputCall.pushed [call]) (c.attemptFor? call).toList := by
  cases call with
  | flush => exact flush c
  | push b =>
    rw [Console.respond, push_eq, attemptFor?]
    by_cases hfull : c.threshold < (c.withPending b).pending.size
    · rw [if_pos hfull, if_pos hfull]
      exact (withPending c b).trans (flush (c.withPending b))
    · rw [if_neg hfull, if_neg hfull]
      exact withPending c b

/-- **Any calls keep the account.** -/
theorem calls (c : Console) (calls : List OutputCall) :
    Ledger c (c.afterCalls calls) (OutputCall.pushed calls) (c.attempts calls) := by
  induction calls generalizing c with
  | nil => exact refl c
  | cons call rest ih =>
    rw [OutputCall.pushed_cons]
    exact (respond c call).trans (ih _)

end Console.Ledger

/-! ## What becomes of an attempt -/

theorem Refused.exists_isRefusal {bytes : List UInt8} {calls : List Event}
    (h : Refused bytes calls) : ∃ e ∈ calls, e.isRefusal = true := by
  induction h with
  | failed => exact ⟨_, List.mem_singleton_self _, rfl⟩
  | nothingAccepted => exact ⟨_, List.mem_singleton_self _, rfl⟩
  | interrupted _ ih =>
    obtain ⟨e, he, hrefusal⟩ := ih
    exact ⟨e, List.mem_cons_of_mem _ he, hrefusal⟩

/-- Writing a batch fails only if some write is refused. -/
theorem Fate.exists_isRefusal {batch : List UInt8} {e : StreamError} {calls : List Event}
    (h : Fate batch (.error e) calls) : ∃ e ∈ calls, e.isRefusal = true := by
  cases h with
  | refused h => exact h.exists_isRefusal
  | torn h _ _ =>
    obtain ⟨before, offered, count, after, rfl, -, -, hrefused⟩ := h
    obtain ⟨e, he, hrefusal⟩ := hrefused.exists_isRefusal
    exact ⟨e, by simp [he], hrefusal⟩

namespace Attempt

variable {a : Attempt}

theorem taken_isPrefix (h : Fate a.batch a.result a.writes) : a.taken <+: a.batch := by
  obtain ⟨batch, result, writes⟩ := a
  cases h with
  | delivered h => exact h ▸ List.prefix_rfl
  | refused h => simp [taken, h.accepted_eq_nil]
  | torn _ _ hpart => exact hpart

theorem taken_eq_batch (h : Fate a.batch a.result a.writes) (ha : a.succeeded = true) :
    a.taken = a.batch := by
  obtain ⟨batch, result, writes⟩ := a
  cases h with
  | delivered h => exact h
  | refused _ => cases ha
  | torn _ _ _ => cases ha

theorem succeeded_of_writes (h : Fate a.batch a.result a.writes)
    (hwrites : ∀ e ∈ a.writes, e.isRefusal = false) : a.succeeded = true := by
  obtain ⟨batch, result, writes⟩ := a
  cases result with
  | ok u => rfl
  | error e =>
    obtain ⟨e, he, hrefusal⟩ := Fate.exists_isRefusal h
    rw [hwrites e he] at hrefusal
    cases hrefusal

end Attempt

/-! ## Sinks that refuse nothing -/

namespace Console

/-- A flush whose attempt succeeds leaves nothing pending. -/
theorem pending_flush (c : Console) (h : ∀ a ∈ c.attempt?, a.succeeded = true) :
    c.flush.2.pending = #[] := by
  cases hpending : c.pending.isEmpty with
  | true =>
    rw [flush, if_pos hpending]
    exact Array.isEmpty_iff.mp hpending
  | false =>
    rw [flush_eq c hpending, if_pos (h _ (by simp [attempt?, hpending]))]
    rfl

/-- After a call whose attempt succeeds, no more is pending than the threshold allows. -/
theorem size_pending_respond (c : Console) (call : OutputCall)
    (h : ∀ a ∈ c.attemptFor? call, a.succeeded = true) :
    (c.respond call).2.pending.size ≤ c.threshold := by
  cases call with
  | flush => simp [respond, pending_flush c h]
  | push b =>
    rw [respond, push_eq]
    by_cases hfull : c.threshold < (c.withPending b).pending.size
    · rw [attemptFor?, if_pos hfull] at h
      rw [if_pos hfull, pending_flush (c.withPending b) h]
      exact Nat.zero_le _
    · rw [if_neg hfull]
      exact Nat.le_of_not_lt hfull

/-- **After any calls whose attempts succeed, no more is pending than the threshold allows.** -/
theorem size_pending_afterCalls (c : Console) (calls : List OutputCall)
    (hc : c.pending.size ≤ c.threshold) (h : ∀ a ∈ c.attempts calls, a.succeeded = true) :
    (c.afterCalls calls).pending.size ≤ c.threshold := by
  induction calls generalizing c with
  | nil => exact hc
  | cons call rest ih =>
    obtain ⟨hcall, hrest⟩ := List.forall_mem_append.mp h
    have hthreshold := (Ledger.respond c call).threshold
    have hsize := size_pending_respond c call (by simpa using hcall)
    rw [← hthreshold] at hsize ⊢
    exact ih _ hsize hrest

/-- If every attempt succeeds, what was pushed has been accepted or is pending. -/
theorem Ledger.accepted_append_pending {c c' : Console} {pushed : List UInt8}
    {attempts : List Attempt} (h : Ledger c c' pushed attempts)
    (hall : ∀ a ∈ attempts, a.succeeded = true) :
    c'.streams.accepted ++ c'.pending.toList =
      c.streams.accepted ++ (c.pending.toList ++ pushed) := by
  have htaken : attempts.flatMap Attempt.taken = attempts.flatMap Attempt.delivered := by
    apply List.flatMap_congr
    intro a ha
    rw [Attempt.taken_eq_batch (h.fate a ha) (hall a ha), Attempt.delivered, if_pos (hall a ha)]
  rw [h.accepted, h.pending, htaken, List.append_assoc]

/-- A sink that does not fail takes every batch whole. -/
theorem succeeded_of_reliable {c : Console} (h : c.streams.Reliable) (call : OutputCall) :
    ∀ a ∈ c.attemptFor? call, a.succeeded = true := by
  have hwhole (c' : Console) (hstreams : c'.streams = c.streams) :
      ∀ a ∈ c'.attempt?, a.succeeded = true := by
    intro a ha
    obtain ⟨-, ha⟩ := Option.ite_none_left_eq_some.mp ha
    obtain rfl := Option.some.inj ha
    rw [← hstreams] at h
    have hresult := (Streams.serveWrite_of_reliable c'.streams.writes c'.pending.toList h.writes).1
    simp [Attempt.succeeded, wholeAttempt, hresult]
  cases call with
  | flush => exact hwhole c rfl
  | push b =>
    rw [attemptFor?]
    split
    · exact hwhole (c.withPending b) rfl
    · exact nofun

/-- The sink does not fail, and no more is pending than the threshold allows. -/
structure Steady (threshold : Nat) (c : Console) : Prop where
  threshold_eq : c.threshold = threshold
  pending : c.pending.size ≤ threshold
  reliable : c.streams.Reliable

namespace Steady

variable {threshold : Nat} {c : Console}

theorem respond (h : Steady threshold c) (call : OutputCall) :
    Steady threshold (c.respond call).2 where
  threshold_eq := (Ledger.respond c call).threshold.trans h.threshold_eq
  pending := by
    rw [← h.threshold_eq]
    exact size_pending_respond c call (succeeded_of_reliable h.reliable call)
  reliable := by
    cases call with
    | flush =>
      obtain ⟨c', hflush, hreliable, -⟩ := flush_of_reliable h.reliable
      rw [Console.respond, hflush]
      exact hreliable
    | push b =>
      obtain ⟨c', hpush, hreliable, -⟩ := push_of_reliable h.reliable b
      rw [Console.respond, hpush]
      exact hreliable

/-- A read is made after a flush. -/
theorem readByte (h : Steady threshold c) : Steady threshold c.readByte.2 := by
  have hflushed := h.respond .flush
  obtain ⟨c', hflush, -⟩ := flush_of_reliable h.reliable
  rw [Console.respond, hflush] at hflushed
  obtain ⟨s, hread, hs, -⟩ := hflushed.reliable.readByte
  rw [Console.readByte, hflush]
  simp only [hread]
  exact ⟨hflushed.threshold_eq, hflushed.pending, hs⟩

end Steady

end Console

/-! ## Runs on a sink that does not fail -/

namespace Machine

variable {code : Array Word} {settings : Settings} {m m' : Machine}

theorem steady_load (settings : Settings) {streams : Streams} (h : streams.Reliable) :
    (load settings streams).console.Steady settings.flushThreshold :=
  ⟨rfl, Nat.zero_le _, h⟩

theorem steady_step (code : Array Word) (h : m.console.Steady settings.flushThreshold) :
    (m.step code settings).machine.console.Steady settings.flushThreshold := by
  rcases step_console code settings m with ⟨-, hc⟩ | ⟨b, -, hc⟩ | ⟨-, hc⟩
  · rw [hc]
    exact h
  · rw [hc]
    exact h.respond (.push b)
  · rw [hc]
    exact h.readByte

/-- **At no time of a run is more pending than the threshold allows**, on a sink that does not
fail. -/
theorem steady_of_reaches (h : m.console.Steady settings.flushThreshold)
    (hreaches : Reaches code settings m m') : m'.console.Steady settings.flushThreshold := by
  obtain ⟨n, hn⟩ := hreaches
  induction n generalizing m with
  | zero =>
    obtain rfl := Progress.running.inj hn
    exact h
  | succ n ih =>
    have hstep := steady_step code h
    rw [advance] at hn
    cases hm : m.step code settings with
    | running m₁ =>
      rw [hm] at hn hstep
      exact ih hstep hn
    | halted fault e =>
      rw [hm] at hn
      cases hn

end Machine

/-- **The output buffer loses and reorders nothing, under any sink.** After any calls on a new
console, with any replies of the sink to come, the writes that have been made are those of the
attempts. The bytes pushed so far are those of the batches whose attempt succeeded, followed by those
that are pending. The sink has accepted, in each attempt, the whole batch if the attempt succeeded and
a prefix of it in any case. And if no write was refused, then what has been accepted and what is
pending are all that was pushed, and no more is pending than the threshold allows, however the flushes
of the streams have ended. -/
theorem output_buffer_exact (threshold : Nat) (writes : List WriteReply)
    (flushes : List FlushReply) (calls : List OutputCall) :
    let new : Console := { threshold, streams := { writes, flushes } }
    let c := new.afterCalls calls
    let attempts := new.attempts calls
    c.streams.writeEvents = attempts.flatMap Attempt.writes ∧
      OutputCall.pushed calls =
        (attempts.filter Attempt.succeeded).flatMap Attempt.batch ++ c.pending.toList ∧
      c.streams.accepted = attempts.flatMap Attempt.taken ∧
      (∀ a ∈ attempts, a.taken <+: a.batch ∧ (a.succeeded = true → a.taken = a.batch)) ∧
      ((∀ e ∈ c.streams.writeEvents, e.isRefusal = false) →
        c.streams.accepted ++ c.pending.toList = OutputCall.pushed calls ∧
          c.pending.size ≤ threshold) := by
  intro new c attempts
  have hledger : Console.Ledger new c (OutputCall.pushed calls) attempts := .calls new calls
  have hwrites : c.streams.writeEvents = attempts.flatMap Attempt.writes := hledger.writes
  refine ⟨hwrites, ?_, hledger.accepted, ?_, ?_⟩
  · rw [← Attempt.flatMap_delivered, ← hledger.pending]
    rfl
  · intro a ha
    exact ⟨Attempt.taken_isPrefix (hledger.fate a ha), Attempt.taken_eq_batch (hledger.fate a ha)⟩
  · intro hrefuses
    have hall : ∀ a ∈ attempts, a.succeeded = true := by
      intro a ha
      refine Attempt.succeeded_of_writes (hledger.fate a ha) fun e he => hrefuses e ?_
      rw [hwrites]
      exact List.mem_flatMap_of_mem ha he
    exact ⟨hledger.accepted_append_pending hall,
      new.size_pending_afterCalls calls (Nat.zero_le _) hall⟩

/-- Three bytes are pushed and flushed with a threshold of one. The sink is interrupted, takes one byte
at a time, and fails to flush twice. -/
theorem output_buffer_exact_of_failed_flushes :
    let new : Console :=
      { threshold := 1
        streams :=
          { writes := [.interrupted, .atMost 1, .atMost 1], flushes := [.failed, .failed] } }
    let c := new.afterCalls [.push 1, .push 2, .push 3]
    c.streams.accepted = [1, 2] ∧ c.pending = #[3] ∧
      c.streams.accepted ++ c.pending.toList = [1, 2, 3] ∧ c.pending.size ≤ 1 ∧
      (new.afterCalls [.push 1, .push 2, .push 3, .flush]).pending.size ≤ 1 := by
  obtain ⟨-, -, -, -, hexact⟩ := output_buffer_exact 1 [.interrupted, .atMost 1, .atMost 1]
    [.failed, .failed] [.push 1, .push 2, .push 3]
  obtain ⟨-, -, -, -, hflushed⟩ := output_buffer_exact 1 [.interrupted, .atMost 1, .atMost 1]
    [.failed, .failed] [.push 1, .push 2, .push 3, .flush]
  obtain ⟨haccepted, hsize⟩ := hexact (by decide)
  exact ⟨rfl, rfl, haccepted, hsize, (hflushed (by decide)).2⟩

/-- The same bytes on a sink that takes one of them and then fails: the batch stays pending whole, and
is written again by the next call. -/
example :
    let new : Console := { threshold := 1, streams := { writes := [.atMost 1, .failed] } }
    (new.attempts [.push 1, .push 2, .push 3]).map (fun a => (a.batch, a.taken)) =
        [([1, 2], [1]), ([1, 2, 3], [1, 2, 3])] ∧
      (new.afterCalls [.push 1, .push 2]).pending = #[1, 2] ∧
      (new.afterCalls [.push 1, .push 2, .push 3]).streams.accepted = [1, 1, 2, 3] :=
  ⟨rfl, rfl, rfl⟩

end Tapecode
