import GridWalk.Stream.Fault
import GridWalk.Text.Utf8

/-!
# Buffered output

Characters are written to a buffer in front of a sink. The buffer has no capacity:
writing a character never fails and never reaches the sink. Flushing offers the whole
buffer to the sink, again and again until it is empty, and then flushes the sink.
The sink may accept part of what it is offered or fail. Accepted bytes leave the
buffer, the rest stays for the next flush, so that accepted bytes followed by
buffered bytes are always all bytes written (`Output.written`).
-/

namespace GridWalk

/-- How a sink answers one offer of bytes. -/
inductive Reply where
  /-- It accepts everything. -/
  | all
  /-- It accepts at most this many bytes. -/
  | upTo (limit : Nat)
  /-- It fails. -/
  | fault (fault : Fault)
  deriving DecidableEq, Repr

/-- The far end of an output, with its answers to come. When the answers are used up,
everything succeeds. -/
structure Sink where
  /-- The answers to the next offers. -/
  replies : List Reply := []
  /-- The outcomes of the next flushes, `none` for success. -/
  flushes : List (Option Fault) := []
  /-- All bytes accepted so far. -/
  accepted : List UInt8 := []
  deriving DecidableEq, Repr

/-- A sink with a buffer in front of it. -/
structure Output where
  /-- The bytes that wait to be accepted. -/
  buffer : List UInt8 := []
  /-- The stream behind the buffer. -/
  sink : Sink := {}
  deriving DecidableEq, Repr

namespace Sink

/-- Flush the sink once. -/
def flush (s : Sink) : Except Fault Unit × Sink :=
  match s.flushes with
  | [] => (.ok (), s)
  | none :: rest => (.ok (), { s with flushes := rest })
  | some f :: rest => (.error f, { s with flushes := rest })

/-- Flushing a sink accepts no bytes. -/
@[simp] theorem accepted_flush (s : Sink) : s.flush.2.accepted = s.accepted := by
  unfold flush
  split <;> rfl

end Sink

namespace Output

/-- Everything written: what the sink accepted, then what waits. -/
def written (o : Output) : List UInt8 := o.sink.accepted ++ o.buffer

/-- Write one character to the buffer. -/
def put (o : Output) (c : Char) : Output := { o with buffer := o.buffer ++ Text.encode c }

/-- Offer `buffer` to a sink that has accepted `accepted` and answers by `replies`, until
nothing is left or a fault stops it. An interrupted offer is made again, and an
offer of which nothing is accepted is a fault. -/
def offer (flushes : List (Option Fault)) (accepted : List UInt8) :
    List UInt8 → List Reply → Except Fault Unit × Output
  | [], replies => (.ok (), ⟨[], replies, flushes, accepted⟩)
  | buffer, [] => (.ok (), ⟨[], [], flushes, accepted ++ buffer⟩)
  | buffer, .all :: replies => (.ok (), ⟨[], replies, flushes, accepted ++ buffer⟩)
  | buffer, .upTo 0 :: replies => (.error .writeZero, ⟨buffer, replies, flushes, accepted⟩)
  | buffer, .upTo (n + 1) :: replies =>
    offer flushes (accepted ++ buffer.take (n + 1)) (buffer.drop (n + 1)) replies
  | buffer, .fault f :: replies =>
    if f.isInterrupted then offer flushes accepted buffer replies
    else (.error f, ⟨buffer, replies, flushes, accepted⟩)

/-- Empty the buffer into the sink. -/
def drain (o : Output) : Except Fault Unit × Output :=
  offer o.sink.flushes o.sink.accepted o.buffer o.sink.replies

/-- Empty the buffer, then flush the sink. A fault of the sink's own flush is not retried. -/
def flush (o : Output) : Except Fault Unit × Output :=
  match o.drain with
  | (.error f, o) => (.error f, o)
  | (.ok (), o) => (o.sink.flush.1, { o with sink := o.sink.flush.2 })

/-! ### Nothing written is lost, doubled or moved -/

@[simp] theorem written_put (o : Output) (c : Char) :
    (o.put c).written = o.written ++ Text.encode c := by
  simp [put, written]

/-- However the sink answers, accepted and waiting bytes together stay the same. -/
theorem written_offer (flushes : List (Option Fault)) (accepted buffer : List UInt8)
    (replies : List Reply) :
    (offer flushes accepted buffer replies).2.written = accepted ++ buffer := by
  fun_induction offer flushes accepted buffer replies with
  | case1 => simp [written]
  | case2 => simp [written]
  | case3 => simp [written]
  | case4 => simp [written]
  | case5 accepted buffer replies n h ih =>
    rw [ih, List.append_assoc, List.take_append_drop]
  | case6 accepted buffer replies f h hf ih => exact ih
  | case7 => simp [written]

@[simp] theorem written_drain (o : Output) : o.drain.2.written = o.written :=
  written_offer o.sink.flushes o.sink.accepted o.buffer o.sink.replies

@[simp] theorem written_flush (o : Output) : o.flush.2.written = o.written := by
  have h := written_drain o
  unfold flush
  split
  · next f o' he => rwa [he] at h
  · next o' he =>
    rw [he] at h
    rw [← h]
    simp only [written, Sink.accepted_flush]

/-- An offer that ends well leaves nothing waiting. -/
theorem buffer_offer {flushes : List (Option Fault)} {accepted buffer : List UInt8}
    {replies : List Reply} (h : (offer flushes accepted buffer replies).1 = .ok ()) :
    (offer flushes accepted buffer replies).2.buffer = [] := by
  fun_induction offer flushes accepted buffer replies with
  | case1 => rfl
  | case2 => rfl
  | case3 => rfl
  | case4 => simp at h
  | case5 accepted buffer replies n hb ih => exact ih h
  | case6 accepted buffer replies f hb hf ih => exact ih h
  | case7 => simp at h

end Output

end GridWalk
