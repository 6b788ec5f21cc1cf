import GridWalk.Machine.Failure
import GridWalk.Machine.Trace
import GridWalk.Program
import GridWalk.Stream.Input
import GridWalk.Stream.Output

/-!
# The machine

A machine executes a program over a stack, an input and an output. One step runs
the instruction at the program counter and flushes the output. The counter then
moves on by one, or to the target of a jump that was taken. The instruction alone
decides which: one that fails moves the counter on by one, and a jump that is taken
leads to its target even if the flush fails and the step with it. The machine has
halted when the counter is past the last instruction.
-/

namespace GridWalk

/-- The state of a running program. -/
structure Machine where
  /-- The program. -/
  program : Program
  /-- The index of the next instruction. -/
  pc : Nat := 0
  /-- The data stack. -/
  stack : Stack := {}
  /-- Where characters are read from. -/
  input : Input := {}
  /-- Where characters are written to. -/
  output : Output := {}
  /-- What the program writes about itself. -/
  trace : Trace := {}
  deriving DecidableEq

/-- Where to go on after an instruction. -/
inductive Flow where
  /-- At the next instruction. -/
  | next
  /-- At this index. -/
  | jump (target : Nat)
  deriving DecidableEq, Repr

namespace Machine

/-- Whether the program has ended. -/
def isHalted (m : Machine) : Bool := m.program.size ≤ m.pc

/-- Take over the outcome of a stack operation. -/
def onStack (m : Machine) (result : Except Stack.Error Stack) : Except Cause Flow × Machine :=
  match result with
  | .ok s => (.ok .next, { m with stack := s })
  | .error e => (.error (.stack e), m)

/-- Perform an action. -/
def execute (m : Machine) : Action → Except Cause Flow × Machine
  | .nop => (.ok .next, m)
  | .push c => (.ok .next, { m with stack := m.stack.push c })
  | .dup => m.onStack m.stack.dup
  | .swap depth => m.onStack (m.stack.swap depth)
  | .sub => m.onStack m.stack.sub
  | .greater => m.onStack m.stack.greater
  | .jumpZero radius =>
    match m.stack.top with
    | .error e => (.error (.stack e), m)
    | .ok c => (.ok (if c.isZero then .jump (m.program.jumpTarget radius) else .next), m)
  | .getChar =>
    match m.input.readChar with
    | (.error f, i) => (.error (.read f), { m with input := i })
    | (.ok c, i) =>
      (.ok .next, { m with input := i, stack := m.stack.push (c.elim .zero .ofChar) })
  | .putChar =>
    match m.stack.pop with
    | .error e => (.error (.stack e), m)
    | .ok (c, s) => (.ok .next, { m with stack := s, output := m.output.put c.toChar })

/-- Write the lines about the instruction that is about to run, in debug mode. -/
def traceStep (m : Machine) (i : Instruction) : Machine :=
  if m.program.config.debug then { m with trace := m.trace.step m.pc i m.stack } else m

/-- The counter after an instruction at `pc`. -/
def nextPc (pc : Nat) : Except Cause Flow → Nat
  | .ok (.jump target) => target
  | _ => pc + 1

/-- The outcome of a step: the fault of the instruction comes before that of the flush. -/
def verdict (executed : Except Cause Flow) (flushed : Except Fault Unit) : Except Cause Unit :=
  match executed, flushed with
  | .error cause, _ => .error cause
  | .ok _, .error f => .error (.write f)
  | .ok _, .ok _ => .ok ()

/-- Run instruction `i`, which stands at the program counter. -/
def perform (m : Machine) (i : Instruction) : Except Cause Unit × Machine :=
  let ran := (m.traceStep i).execute i.action
  let flushed := ran.2.output.flush
  (verdict ran.1 flushed.1, { ran.2 with output := flushed.2, pc := nextPc m.pc ran.1 })

/-- Run one instruction. A halted machine stays as it is. -/
def step (m : Machine) : Except Failure Unit × Machine :=
  match m.program.instructions[m.pc]? with
  | none => (.ok (), m)
  | some i => ((m.perform i).1.mapError (⟨m.pc, i, ·⟩), (m.perform i).2)

end Machine

end GridWalk
