import GridWalk.Program

/-!
# Requests

The command line is `tsp [--debug] [--strict] <FILE>`. Arguments are read from left
to right, options and the file in any order, and `--` ends the options. The first
argument that settles the matter does so at once: a wrong one, or a request for
help or for the version.
-/

namespace GridWalk.CommandLine

/-- What is wrong with a command line. -/
inductive UsageError where
  /-- No such option. -/
  | unknownOption (argument : String)
  /-- A flag was given a value. -/
  | unexpectedValue (argument : String)
  /-- A flag was given twice. -/
  | repeatedFlag (argument : String)
  /-- The file has no name. -/
  | emptyFile
  /-- A second file was given. -/
  | secondFile (name : String)
  /-- No file was given. -/
  | missingFile
  deriving DecidableEq, Repr

/-- The sentence that reports the error. -/
def UsageError.message : UsageError → String
  | .unknownOption a => s!"error: unexpected argument '{a}' found"
  | .unexpectedValue a => s!"error: unexpected value in '{a}'"
  | .repeatedFlag a => s!"error: the argument '{a}' cannot be used multiple times"
  | .emptyFile => "error: a value is required for '<FILE>' but none was supplied"
  | .secondFile a => s!"error: unexpected argument '{a}' found"
  | .missingFile => "error: the following required arguments were not provided: <FILE>"

/-- What a command line asks for. -/
inductive Request where
  /-- The text about the command line. -/
  | help
  /-- The version. -/
  | version
  /-- To compile a file and run it. -/
  | run (config : Config) (file : String)
  deriving DecidableEq, Repr

/-- What one argument before `--` means. -/
inductive Argument where
  | debug
  | strict
  | help
  | version
  | separator
  | file (name : String)
  | wrong (error : UsageError)
  deriving DecidableEq, Repr

/-- The names of the options, without their dashes. -/
def optionNames : List String := ["debug", "strict", "help", "version"]

/-- An argument that starts with two dashes and goes on with `name`. No option takes a value. -/
def Argument.ofLong (argument name : String) : Argument :=
  match name with
  | "" => .separator
  | "debug" => .debug
  | "strict" => .strict
  | "help" => .help
  | "version" => .version
  | _ =>
    if optionNames.any fun known => (known ++ "=").isPrefixOf name then
      .wrong (.unexpectedValue argument)
    else
      .wrong (.unknownOption argument)

/-- The meaning of an argument. Of an argument that starts with one dash only the first letter
counts, since both known letters settle the matter. A lone dash is a file. -/
def Argument.ofString (argument : String) : Argument :=
  match argument.toList with
  | '-' :: '-' :: name => .ofLong argument (String.ofList name)
  | '-' :: 'h' :: _ => .help
  | '-' :: 'V' :: _ => .version
  | '-' :: _ :: _ => .wrong (.unknownOption argument)
  | _ => .file argument

/-- What is known of a request for a run. -/
structure Draft where
  /-- The flags given so far. -/
  config : Config := {}
  /-- The file, if it was given. -/
  file : Option String := none
  deriving DecidableEq, Repr

namespace Draft

/-- Note the file. -/
def addFile (d : Draft) (name : String) : Except UsageError Draft :=
  match d.file with
  | some _ => .error (.secondFile name)
  | none => if name.isEmpty then .error .emptyFile else .ok { d with file := some name }

/-- The request when all arguments are read. -/
def finish (d : Draft) : Except UsageError Request :=
  match d.file with
  | some name => .ok (.run d.config name)
  | none => .error .missingFile

/-- Read the arguments behind `--`, all of which are files. -/
def readFiles (d : Draft) : List String → Except UsageError Request
  | [] => d.finish
  | name :: rest =>
    match d.addFile name with
    | .ok d => d.readFiles rest
    | .error e => .error e

/-- Read arguments from left to right. -/
def read (d : Draft) : List String → Except UsageError Request
  | [] => d.finish
  | argument :: rest =>
    match Argument.ofString argument with
    | .help => .ok .help
    | .version => .ok .version
    | .wrong e => .error e
    | .separator => d.readFiles rest
    | .debug =>
      if d.config.debug then .error (.repeatedFlag argument)
      else read { d with config := { d.config with debug := true } } rest
    | .strict =>
      if d.config.strict then .error (.repeatedFlag argument)
      else read { d with config := { d.config with strict := true } } rest
    | .file name =>
      match d.addFile name with
      | .ok d => d.read rest
      | .error e => .error e

end Draft

/-- What these arguments ask for. -/
def Request.ofArguments (arguments : List String) : Except UsageError Request :=
  ({} : Draft).read arguments

/-- The line that names the program and its version. -/
def versionText : String := "tsp 1.0.0\n"

/-- The text about the command line. -/
def helpText : String := String.join
  ["Compile a path program and run it on stdin/stdout\n\n",
    "Usage: tsp [OPTIONS] <FILE>\n\n",
    "Arguments:\n",
    "  <FILE>  Source file\n\n",
    "Options:\n",
    "      --debug    Print the instruction listing and trace every step to stderr\n",
    "      --strict   Stop at the first runtime error instead of skipping it\n",
    "  -h, --help     Print help\n",
    "  -V, --version  Print version\n"]

end GridWalk.CommandLine
