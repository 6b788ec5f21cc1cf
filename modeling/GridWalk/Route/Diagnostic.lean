import GridWalk.Route.Basic

/-!
# Diagnostics

A diagnostic is a report about a route: a message with a code that classifies it,
advice where there is any, and labels on parts of the text.
-/

namespace GridWalk

/-- How grave a diagnostic is, where it says so. -/
inductive Severity where
  | warning
  deriving DecidableEq, Repr

/-- A remark on part of a text. -/
structure Label where
  /-- The remark. -/
  remark : String
  /-- The part it is about. -/
  span : Span
  deriving DecidableEq, Repr

/-- A report about a route. -/
structure Diagnostic where
  /-- The sentence that reports it. -/
  message : String
  /-- The code that classifies it. -/
  code : String
  /-- Advice, where there is any. -/
  help : Option String := none
  /-- Its gravity, where it says so. -/
  severity : Option Severity := none
  /-- Remarks on parts of the text. -/
  labels : List Label := []
  /-- The route that the labels are about. -/
  route : Option Route := none
  deriving DecidableEq, Repr

end GridWalk
