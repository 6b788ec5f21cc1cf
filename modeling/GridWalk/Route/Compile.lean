import GridWalk.Program
import GridWalk.Route.Diagnostic
import GridWalk.Route.Walk
import GridWalk.Stream.Input

/-!
# Compiling routes

A route compiles to the program of its visits when its walk comes home. Otherwise
the error says which two visits clash or where the walk was lost. Text that moves
on after the walk came home is a warning.
-/

namespace GridWalk

/-- Why a route does not compile. -/
inductive CompileError where
  /-- The route could not be read. -/
  | unreadable (fault : Fault)
  /-- The text is no sequence of tokens. -/
  | malformed (route : Route)
  /-- Two visits are at the same distances from the origin. -/
  | clash (route : Route) (first second : Visit)
  /-- The walk never visits the origin and ends at this point. -/
  | lost (route : Route) (finish : Point)
  deriving DecidableEq, Repr

/-- Moves after the walk came home, which are ignored. -/
structure Warning where
  /-- The route. -/
  route : Route
  /-- From the first such move to the end of the text. -/
  span : Span
  deriving DecidableEq, Repr

/-- What a route compiles to. -/
structure Compilation where
  /-- The program. -/
  program : Program
  /-- What is odd about the route. -/
  warnings : List Warning
  deriving DecidableEq

namespace CompileError

/-- The error as a report. -/
def diagnostic : CompileError → Diagnostic
  | .unreadable _ =>
    { message := "failed to read the source", code := "tsp::compile::read" }
  | .malformed r =>
    { message := s!"failed to tokenize the source: {r.name}", code := "tsp::compile::tokenize" }
  | .clash r u v =>
    { message :=
        s!"instruction {u.index} at {u.point} and instruction {v.index} at {v.point}" ++
        s!" share Chebyshev distance {v.point.radii.chebyshev.toNat}" ++
        s!" and Manhattan distance {v.point.radii.manhattan.toNat} from the origin"
      code := "tsp::compile::duplicate_distance_key"
      help := some <|
        "no two visited points may have both the same Chebyshev" ++
        " and the same Manhattan distance from the origin"
      labels := [⟨"first visited here", u.offset, 1⟩, ⟨"conflicting visit", v.offset, 1⟩]
      route := some r }
  | .lost r finish =>
    { message := s!"the salesperson never returns to (0, 0); the path ends at {finish}"
      code := "tsp::compile::missing_termination"
      help := some "walk back to the origin and visit it with `$` to end the program"
      labels := [⟨"source ends here", r.endSpan⟩]
      route := some r }

/-- The sentence that reports the error. -/
def message (e : CompileError) : String := e.diagnostic.message

end CompileError

/-- The warning as a report. -/
def Warning.diagnostic (w : Warning) : Diagnostic where
  message := "code remaining after visiting the origin is ignored"
  code := "tsp::compile::trailing_code"
  severity := some .warning
  labels := [⟨"ignored from here on", w.span⟩]
  route := some w.route

namespace Route

/-- The commands of a route with their positions, or `none` if the text is no sequence of
tokens. -/
def waypoints? (r : Route) : Option (List Waypoint) :=
  (Rule.program.parse? r.text.toList).map fun l => l.filterMap Lexeme.waypoint?

/-- The warning about moves from `offset` on. -/
def trailing (r : Route) (offset : Nat) : Warning := ⟨r, offset, r.size - offset⟩

/-- Compile a route. -/
def compile (r : Route) (config : Config := {}) : Except CompileError Compilation :=
  match r.waypoints? with
  | none => .error (.malformed r)
  | some commands =>
    match walk commands with
    | .clash u v => .error (.clash r u v)
    | .lost finish => .error (.lost r finish)
    | .home visits trailing =>
      .ok ⟨.ofList (visits.map Visit.instruction) config, (trailing.map r.trailing).toList⟩

/-- Compile the route that an input spells up to its first end. -/
def compileInput (name : String) (input : Input) (config : Config := {}) :
    Except CompileError Compilation :=
  match input.readAll with
  | .error f => .error (.unreadable f)
  | .ok bytes => (ofBytes name bytes).compile config

end Route

end GridWalk
