import Mathlib.Tactic.Common
import Tapecode.Console

/-!
# Delivery of the output

A sink is reliable if no write and no flush fails for good (`Streams.Reliable`). It may be
interrupted and take a batch in parts. Under a reliable sink the bytes that have been accepted,
followed by those that are pending, are the bytes printed so far (`Console.sent`):

* `Console.flush_of_reliable`: a flush delivers all of them;
* `Console.push_of_reliable`: a byte is printed after those before it;
* `Console.readByte_of_reliable`: a read answers what the input replies, and finds everything
  printed so far delivered.
-/

namespace Tapecode

/-- Whether an event is a read. -/
def Event.isRead : Event → Bool
  | read _ => true
  | write _ _ | flush _ => false

namespace Streams

/-- No write and no flush will fail, and none will accept nothing at all. -/
structure Reliable (s : Streams) : Prop where
  writes : ∀ r ∈ s.writes, r ≠ .failed ∧ r ≠ .atMost 0
  flushes : ∀ r ∈ s.flushes, r ≠ .failed

/-- The reads so far, with their replies. -/
def readEvents (s : Streams) : List Event :=
  s.events.toList.filter Event.isRead

/-! ## Calls on the streams -/

/-- A write to a reliable sink delivers its bytes, in however many parts. -/
theorem serveWrite_of_reliable (replies : List WriteReply) (bytes : List UInt8)
    (h : ∀ r ∈ replies, r ≠ .failed ∧ r ≠ .atMost 0) :
    (serveWrite replies bytes).result = .ok () ∧
      (serveWrite replies bytes).events.flatMap Event.accepted = bytes ∧
      (serveWrite replies bytes).events.filter Event.isRead = [] ∧
      ∀ r ∈ (serveWrite replies bytes).rest, r ∈ replies := by
  induction replies, bytes using serveWrite.induct with
  | case1 replies => simp [serveWrite]
  | case2 bytes hbytes =>
    rw [serveWrite]
    · simp [Event.accepted, Event.isRead]
    · exact hbytes
  | case3 rest bytes hbytes =>
    rw [serveWrite]
    · simp +contextual [Event.accepted, Event.isRead]
    · exact hbytes
  | case4 rest bytes hbytes => exact absurd rfl (h .failed (by simp)).1
  | case5 rest bytes hbytes ih =>
    obtain ⟨hresult, haccepted, hreads, hrest⟩ := ih fun r hr => h r (by simp [hr])
    rw [serveWrite]
    · exact ⟨hresult, haccepted, hreads, fun r hr => by simp [hrest r hr]⟩
    · exact hbytes
  | case6 rest bytes hbytes => exact absurd rfl (h (.atMost 0) (by simp)).2
  | case7 count rest bytes hbytes hcount ih =>
    obtain ⟨hresult, haccepted, hreads, hrest⟩ := ih fun r hr => h r (by simp [hr])
    rw [serveWrite]
    · refine ⟨hresult, ?_, hreads, fun r hr => by simp [hrest r hr]⟩
      change bytes.take (min count bytes.length) ++ List.flatMap Event.accepted _ = bytes
      rw [haccepted, ← List.take_eq_take_min, List.take_append_drop]
    · exact hcount
    · exact hbytes

/-- A read makes reads only, which deliver no bytes. -/
theorem events_serveRead (replies : List ReadReply) :
    (serveRead replies).events.flatMap Event.accepted = [] ∧
      (serveRead replies).events.filter Event.isRead = (serveRead replies).events := by
  induction replies with
  | nil => exact ⟨rfl, rfl⟩
  | cons reply rest ih =>
    cases reply with
    | byte value => exact ⟨rfl, rfl⟩
    | endOfInput => exact ⟨rfl, rfl⟩
    | failed => exact ⟨rfl, rfl⟩
    | interrupted =>
      refine ⟨ih.1, ?_⟩
      rw [serveRead, List.filter_cons_of_pos rfl, ih.2]

theorem Reliable.writeAll {s : Streams} (h : s.Reliable) (bytes : List UInt8) :
    ∃ s', s.writeAll bytes = (.ok (), s') ∧ s'.Reliable ∧ s'.accepted = s.accepted ++ bytes ∧
      s'.reads = s.reads ∧ s'.readEvents = s.readEvents := by
  obtain ⟨hresult, haccepted, hreads, hrest⟩ := serveWrite_of_reliable s.writes bytes h.writes
  refine ⟨{ s with
      writes := (serveWrite s.writes bytes).rest
      events := s.events ++ (serveWrite s.writes bytes).events },
    by rw [Streams.writeAll, hresult], ⟨fun r hr => h.writes r (hrest r hr), h.flushes⟩, ?_, rfl,
      ?_⟩
  · simp [accepted, haccepted]
  · simp [readEvents, hreads]

theorem Reliable.flush {s : Streams} (h : s.Reliable) :
    ∃ s', s.flush = (.ok (), s') ∧ s'.Reliable ∧ s'.accepted = s.accepted ∧ s'.reads = s.reads ∧
      s'.readEvents = s.readEvents := by
  rcases hflushes : s.flushes with _ | ⟨reply, rest⟩
  · refine ⟨{ s with events := s.events.push (.flush .done) },
      by simp only [Streams.flush, hflushes],
      ⟨h.writes, h.flushes⟩, ?_, rfl, ?_⟩
    · simp [accepted, Event.accepted]
    · simp [readEvents, Event.isRead]
  · cases reply with
    | failed => exact absurd rfl (h.flushes .failed (by simp [hflushes]))
    | done =>
      refine ⟨{ s with flushes := rest, events := s.events.push (.flush .done) },
        by simp only [Streams.flush, hflushes], ⟨h.writes, ?_⟩, ?_, rfl, ?_⟩
      · exact fun r hr => h.flushes r (by simp [hflushes, hr])
      · simp [accepted, Event.accepted]
      · simp [readEvents, Event.isRead]

theorem Reliable.readByte {s : Streams} (h : s.Reliable) :
    ∃ s', s.readByte = ((serveRead s.reads).result, s') ∧ s'.Reliable ∧ s'.accepted = s.accepted ∧
      s'.reads = (serveRead s.reads).rest ∧
      s'.readEvents = s.readEvents ++ (serveRead s.reads).events := by
  obtain ⟨haccepted, hreads⟩ := events_serveRead s.reads
  refine ⟨{ s with
      reads := (serveRead s.reads).rest
      events := s.events ++ (serveRead s.reads).events }, rfl, ⟨h.writes, h.flushes⟩, ?_, rfl, ?_⟩
  · simp [accepted, haccepted]
  · simp [readEvents, hreads]

end Streams

/-! ## The console -/

namespace Console

/-- The bytes printed so far: those that the outside has accepted, then those that are pending. -/
def sent (c : Console) : List UInt8 :=
  c.streams.accepted ++ c.pending.toList

variable {c : Console}

/-- **A flush delivers everything that has been printed.** -/
theorem flush_of_reliable (h : c.streams.Reliable) :
    ∃ c', c.flush = (.ok (), c') ∧ c'.streams.Reliable ∧ c'.streams.accepted = c.sent ∧
      c'.sent = c.sent ∧ c'.streams.reads = c.streams.reads ∧
      c'.streams.readEvents = c.streams.readEvents := by
  by_cases hpending : c.pending.isEmpty = true
  · obtain ⟨s, hflush, hs, haccepted, hreads, hevents⟩ := h.flush
    have hempty : c.pending = #[] := Array.isEmpty_iff.mp hpending
    have hsent : s.accepted = c.sent := by simp [sent, hempty, haccepted]
    refine ⟨{ c with streams := s }, ?_, hs, hsent, ?_, hreads, hevents⟩
    · rw [flush, if_pos hpending, flushStreams, hflush]
    · simp [sent, hempty, haccepted]
  · obtain ⟨s, hwrite, hs, haccepted, hreads, hevents⟩ := h.writeAll c.pending.toList
    obtain ⟨s', hflush, hs', haccepted', hreads', hevents'⟩ := hs.flush
    have hsent : s'.accepted = c.sent := by rw [haccepted', haccepted, sent]
    refine ⟨{ c with pending := #[], streams := s' }, ?_, hs', hsent, ?_, hreads'.trans hreads,
      hevents'.trans hevents⟩
    · rw [flush, if_neg hpending, hwrite]
      simp only [flushStreams, hflush]
    · rw [← hsent, sent]
      simp

/-- **A byte is printed after those before it.** -/
theorem push_of_reliable (h : c.streams.Reliable) (b : UInt8) :
    ∃ c', c.push b = (.ok (), c') ∧ c'.streams.Reliable ∧ c'.sent = c.sent ++ [b] ∧
      c'.streams.reads = c.streams.reads ∧ c'.streams.readEvents = c.streams.readEvents := by
  have hsent : ({ c with pending := c.pending.push b } : Console).sent = c.sent ++ [b] := by
    simp [sent]
  by_cases hfull : c.threshold < (c.pending.push b).size
  · obtain ⟨c', hflush, hc', -, hsent', hreads, hevents⟩ :=
      flush_of_reliable (c := { c with pending := c.pending.push b }) h
    refine ⟨c', ?_, hc', hsent'.trans hsent, hreads, hevents⟩
    rw [push, if_pos hfull, hflush]
  · exact ⟨{ c with pending := c.pending.push b }, by rw [push, if_neg hfull], h, hsent, rfl, rfl⟩

/-- **A read answers what the input replies**, after everything printed has been delivered. -/
theorem readByte_of_reliable (h : c.streams.Reliable) :
    ∃ c', c.readByte = ((Streams.serveRead c.streams.reads).result, c') ∧ c'.streams.Reliable ∧
      c'.sent = c.sent ∧ c'.streams.reads = (Streams.serveRead c.streams.reads).rest ∧
      c'.streams.readEvents = c.streams.readEvents ++
        (Streams.serveRead c.streams.reads).events := by
  obtain ⟨c₁, hflush, hc₁, haccepted, hsent, hreads, hevents⟩ := flush_of_reliable h
  obtain ⟨s, hread, hs, haccepted', hreads', hevents'⟩ := hc₁.readByte
  rw [hreads] at hread hreads' hevents'
  refine ⟨{ c₁ with streams := s }, ?_, hs, ?_, hreads', by rw [hevents', hevents]⟩
  · rw [readByte, hflush]
    simp only [hread]
  · rw [← hsent, sent, sent, haccepted']

end Console

end Tapecode
