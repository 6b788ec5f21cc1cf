import GridWalk.Machine.Basic
import GridWalk.Route.Compile

/-!
# Runs

A run steps a machine until it has halted. A strict program stops at its first
failure, a lenient one counts failures and goes on. A program may run for ever, so
a run is given a number of steps, and its result is `none` when they do not
suffice.
-/

namespace GridWalk

/-- The totals of a run. -/
structure Report where
  /-- The number of instructions executed, failed ones included. -/
  steps : Nat := 0
  /-- The number of failures skipped. -/
  recovered : Nat := 0
  deriving DecidableEq, Repr

namespace Machine

/-- Report a skipped failure, in debug mode. -/
def traceFailure (m : Machine) (f : Failure) : Machine :=
  if m.program.config.debug then
    { m with trace := m.trace.error f.message f.cause.message }
  else
    m

/-- Go on with a run that has made `r.steps` steps, for at most so many more. -/
def runFrom? : Nat → Report → Machine → Option (Except Failure Report × Machine)
  | 0, r, m => if m.isHalted then some (.ok r, m) else none
  | limit + 1, r, m =>
    if m.isHalted then
      some (.ok r, m)
    else
      match m.step with
      | (.ok (), m) => runFrom? limit { r with steps := r.steps + 1 } m
      | (.error f, m) =>
        if m.program.config.strict then some (.error f, m)
        else runFrom? limit ⟨r.steps + 1, r.recovered + 1⟩ (m.traceFailure f)

/-- Write the listing, in debug mode. -/
def traceListing (m : Machine) : Machine :=
  if m.program.config.debug then
    { m with trace := m.trace.listing m.program.instructions.toList }
  else
    m

/-- Run for at most `limit` steps. -/
def run? (limit : Nat) (m : Machine) : Option (Except Failure Report × Machine) :=
  runFrom? limit {} m.traceListing

/-- At most `n` steps, stopping when the machine has halted, with the outcome of each and the
machine after it. -/
def steps : Nat → Machine → List (Except Failure Unit × Machine)
  | 0, _ => []
  | n + 1, m => if m.isHalted then [] else m.step :: steps n m.step.2

/-- Give the machine up: empty the buffer a last time and hand the sink out. -/
def close (m : Machine) : Except Fault Unit × Sink :=
  (m.output.drain.1, m.output.drain.2.sink)

end Machine

namespace Program

/-- A machine that is about to run the program. -/
def machine (p : Program) (input : Input) (sink : Sink) : Machine :=
  { program := p, input := input, output := { sink := sink } }

/-- Run the program on an input and a sink. The last attempt to empty the buffer is made
when the run is over, whatever comes of it. -/
def run? (limit : Nat) (p : Program) (input : Input) (sink : Sink) :
    Option (Except Failure Report × Sink) :=
  ((p.machine input sink).run? limit).map fun (result, m) => (result, m.close.2)

end Program

/-- Why a text cannot be interpreted. -/
inductive InterpretError where
  | compile (error : CompileError)
  | run (failure : Failure)
  deriving DecidableEq, Repr

namespace InterpretError

/-- The sentence that reports the error. -/
def message : InterpretError → String
  | .compile e => e.diagnostic.message
  | .run f => f.message

/-- The code that classifies the error. -/
def code : InterpretError → String
  | .compile e => e.diagnostic.code
  | .run _ => Failure.code

end InterpretError

/-- Compile a text and run it leniently on these bytes. The result is all that it wrote. -/
def interpret? (limit : Nat) (text : String) (bytes : List UInt8) :
    Option (Except InterpretError (List UInt8)) :=
  match Route.compile ⟨Route.anonymous, text⟩ with
  | .error e => some (.error (.compile e))
  | .ok compilation =>
    (compilation.program.run? limit (.ofBytes bytes) {}).map fun (result, sink) =>
      match result with
      | .error f => .error (.run f)
      | .ok _ => .ok sink.accepted

end GridWalk
