import GridWalk.CommandLine.Request
import GridWalk.Machine.Run

/-!
# Sessions

A session is one use of the command line: arguments, a folder to find the file in
and the bytes of the standard input, with everything that comes of them.
-/

namespace GridWalk.CommandLine

/-- The folder that a command line is used in. -/
structure Folder where
  /-- Names and contents of the files. -/
  files : List (String × List UInt8) := []
  deriving DecidableEq, Repr

/-- The contents of the file that a path names. The parts before the name may only be `.` or
empty, so that they lead nowhere else. -/
def Folder.read? (folder : Folder) (path : String) : Option (List UInt8) :=
  match path.splitOn "/" with
  | [] => none
  | first :: rest =>
    let parts := first :: rest
    let within := parts.dropLast.all fun part => part == "." || part == ""
    if within && (first != "" || rest.isEmpty) then folder.files.lookup (parts.getLastD "")
    else none

/-- What a session leaves behind. -/
structure Transcript where
  /-- The exit code. -/
  exitCode : Nat
  /-- The bytes on the standard output. -/
  output : List UInt8 := []
  /-- The lines of the debug trace. -/
  trace : List String := []
  /-- Errors and warnings. -/
  complaints : List String := []
  deriving DecidableEq, Repr

/-- Run a compiled file on the standard input. -/
def runCompiled? (limit : Nat) (compilation : Compilation) (stdin : List UInt8) :
    Option Transcript :=
  ((compilation.program.machine (.ofBytes stdin) {}).run? limit).map fun (result, m) =>
    let output := m.close.2.accepted
    let trace := m.trace.lines.toList
    let warnings := compilation.warnings.map fun w => w.diagnostic.message
    match result with
    | .ok _ => { exitCode := 0, output, trace, complaints := warnings }
    | .error f =>
      { exitCode := 1, output, trace, complaints := warnings ++ f.message :: f.cause.chain }

/-- Use the command line, running for at most `limit` steps. Wrong usage exits with 2, any other
failure with 1. -/
def session? (limit : Nat) (arguments : List String) (folder : Folder) (stdin : List UInt8) :
    Option Transcript :=
  match Request.ofArguments arguments with
  | .error e => some { exitCode := 2, complaints := [e.message] }
  | .ok .help => some { exitCode := 0, output := helpText.toUTF8.toList }
  | .ok .version => some { exitCode := 0, output := versionText.toUTF8.toList }
  | .ok (.run config path) =>
    match folder.read? path with
    | none => some { exitCode := 1, complaints := [s!"failed to open {path}"] }
    | some bytes =>
      match (Route.ofBytes path bytes).compile config with
      | .error e =>
        some { exitCode := 1, complaints := ["failed to compile the source", e.message] }
      | .ok compilation => runCompiled? limit compilation stdin

end GridWalk.CommandLine
