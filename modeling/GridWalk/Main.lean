import GridWalk.CommandLine.Session

/-!
# The command line program

Reads a file, compiles it and steps the machine until it has halted. Input is asked
for only when an instruction needs it, and output is passed on after each step.
-/

namespace GridWalk.CommandLine

/-- The fault that stands for input that has not been asked for yet. -/
def awaiting : Fault := ⟨.wouldBlock, "input not read yet"⟩

/-- Whether a step failed only because input has not been asked for yet. -/
def isAwaiting : Except Failure Unit → Bool
  | .error f => f.cause == .read awaiting
  | .ok _ => false

/-- Ask the standard input for more bytes. -/
def supply (m : Machine) : IO Machine := do
  let chunk ← (← IO.getStdin).read 65536
  let coming := if chunk.isEmpty then [] else [Delivery.fault awaiting]
  return { m with input := ⟨m.input.current ++ chunk.toList, coming⟩ }

/-- Pass on what the sink accepted and the lines of the trace. -/
def passOn (m : Machine) : IO (Except Fault Unit × Machine) := do
  for line in m.trace.lines do
    IO.eprintln line
  let m := { m with trace := {} }
  try
    let out ← IO.getStdout
    out.write ⟨m.output.sink.accepted.toArray⟩
    out.flush
    return (.ok (), { m with output := { m.output with sink := {} } })
  catch e =>
    return (.error ⟨.other, toString e⟩, m)

/-- The outcome of a step at `m` once its output was passed on. -/
def outcome (m : Machine) (i : Instruction) (stepped : Except Failure Unit)
    (passed : Except Fault Unit) : Except Failure Unit :=
  match stepped, passed with
  | .ok (), .error f => .error ⟨m.pc, i, .write f⟩
  | _, _ => stepped

/-- Step until the machine has halted or a strict program fails. -/
partial def drive (m : Machine) : IO UInt32 := do
  match m.program.instructions[m.pc]? with
  | none =>
    let _ ← passOn m
    return 0
  | some i =>
    if isAwaiting m.step.1 then
      drive (← supply m)
    else
      let (passed, after) ← passOn m.step.2
      match outcome m i m.step.1 passed with
      | .ok () => drive after
      | .error f =>
        if after.program.config.strict then
          IO.eprintln ("\n".intercalate (f.message :: f.cause.chain))
          return 1
        else
          drive (after.traceFailure f)

/-- Compile a file and run it. -/
def runFile (config : Config) (path : String) : IO UInt32 := do
  try
    let bytes ← IO.FS.readBinFile path
    match (Route.ofBytes path bytes.toList).compile config with
    | .error e =>
      IO.eprintln ("failed to compile the source\n" ++ e.message)
      return 1
    | .ok compilation =>
      for w in compilation.warnings do
        IO.eprintln w.diagnostic.message
      let m := compilation.program.machine { coming := [.fault awaiting] } {}
      let code ← drive m.traceListing
      return code
  catch e =>
    IO.eprintln ("failed to open " ++ path ++ "\n" ++ toString e)
    return 1

end GridWalk.CommandLine

open GridWalk.CommandLine in
/-- Do what the arguments ask for. -/
def main (arguments : List String) : IO UInt32 := do
  match Request.ofArguments arguments with
  | .error e =>
    IO.eprintln e.message
    return 2
  | .ok .help =>
    IO.print helpText
    return 0
  | .ok .version =>
    IO.print versionText
    return 0
  | .ok (.run config path) => runFile config path
