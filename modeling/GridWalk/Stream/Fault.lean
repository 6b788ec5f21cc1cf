/-!
# Faults of streams

A stream may fail to deliver or to accept bytes. A fault has a kind, by which
interrupted calls are told from the rest, and a text for reports.
-/

namespace GridWalk

/-- The kinds of stream failure. -/
inductive FaultKind where
  /-- The call was interrupted before it did anything. -/
  | interrupted
  /-- The other end is gone. -/
  | brokenPipe
  /-- The data ended too early. -/
  | unexpectedEnd
  /-- The call would have to wait. -/
  | wouldBlock
  /-- A write that accepted nothing. -/
  | writeZero
  /-- Any other failure. -/
  | other
  deriving DecidableEq, Repr

/-- A failure of a stream. -/
structure Fault where
  /-- What kind of failure it is. -/
  kind : FaultKind
  /-- How reports describe it. -/
  text : String
  deriving DecidableEq, Repr

namespace Fault

/-- Interrupted calls may be made again. -/
def isInterrupted (f : Fault) : Bool := f.kind == .interrupted

/-- The failure of writing a buffer to a stream that accepts nothing. -/
def writeZero : Fault := ⟨.writeZero, "failed to write the buffered data"⟩

end Fault

end GridWalk
