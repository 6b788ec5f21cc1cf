import GridWalk.Instruction
import GridWalk.Stack
import GridWalk.Stream.Fault

/-!
# Failures of a running program

An instruction fails because of the stack, the input or the output. A failure
says which instruction it was and why.
-/

namespace GridWalk

/-- Why an instruction failed. -/
inductive Cause where
  /-- The stack could not do it. -/
  | stack (error : Stack.Error)
  /-- No character could be read. -/
  | read (fault : Fault)
  /-- The output could not be flushed. -/
  | write (fault : Fault)
  deriving DecidableEq, Repr

namespace Cause

/-- The sentence that reports the cause. -/
def message : Cause → String
  | .stack e => e.message
  | .read _ => "failed to read a char"
  | .write _ => "failed to write a char"

/-- The code that classifies the cause. -/
def code : Cause → String
  | .stack e => e.code
  | .read _ => "tsp::io::read"
  | .write _ => "tsp::io::write"

/-- Advice, where there is any. -/
def help : Cause → Option String
  | .stack e => e.help
  | _ => none

/-- The message, followed by the fault of the stream where one is to blame. -/
def chain : Cause → List String
  | .stack e => [e.message]
  | .read f => [(Cause.read f).message, f.text]
  | .write f => [(Cause.write f).message, f.text]

end Cause

/-- The failure of one instruction. -/
structure Failure where
  /-- The index of the instruction. -/
  pc : Nat
  /-- The instruction. -/
  instruction : Instruction
  /-- Why it failed. -/
  cause : Cause
  deriving DecidableEq, Repr

namespace Failure

/-- The sentence that reports the failure. -/
def message (f : Failure) : String := s!"instruction {f.pc} ({f.instruction}) failed"

/-- The code of all failures at run time. -/
def code : String := "tsp::runtime"

end Failure

end GridWalk
