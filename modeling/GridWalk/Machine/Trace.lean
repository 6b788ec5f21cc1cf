import GridWalk.Instruction
import GridWalk.Stack

/-!
# Traces

A trace collects the lines that a program in debug mode writes about itself. A
broken trace drops every line, and nothing else depends on it.
-/

namespace GridWalk

/-- The lines of a diagnostic stream. -/
structure Trace where
  /-- Whether every write to the stream fails. -/
  broken : Bool := false
  /-- The lines written so far. -/
  lines : Array String := #[]
  deriving DecidableEq, Repr

namespace Trace

/-- Write one line, marked as a debug line. -/
def line (t : Trace) (text : String) : Trace :=
  if t.broken then t else { t with lines := t.lines.push s!"[DEBUG] {text}" }

/-- Write several lines. -/
def writeLines (t : Trace) (texts : List String) : Trace := texts.foldl line t

/-- A number in at least four columns, set to the right. -/
def column (n : Nat) : String :=
  let digits := toString n
  "".pushn ' ' (4 - digits.length) ++ digits

/-- The lines of a listing. -/
def listingLines (instructions : List Instruction) : List String :=
  "--- Instructions ---" :: instructions.map toString ++ ["--------------------"]

/-- The lines before an instruction runs. -/
def stepLines (pc : Nat) (instruction : Instruction) (stack : Stack) : List String :=
  [s!"Stack: {stack}", s!"PC: {column pc}, {instruction}"]

/-- List instructions. -/
def listing (t : Trace) (instructions : List Instruction) : Trace :=
  t.writeLines (listingLines instructions)

/-- Show the stack, and the instruction that is about to run. -/
def step (t : Trace) (pc : Nat) (instruction : Instruction) (stack : Stack) : Trace :=
  t.writeLines (stepLines pc instruction stack)

/-- Report an error that was skipped, with its cause. -/
def error (t : Trace) (message cause : String) : Trace :=
  t.line s!"Error: {message}: {cause}"

/-- A working trace keeps every line, in order. -/
theorem lines_writeLines {t : Trace} (h : t.broken = false) (texts : List String) :
    (t.writeLines texts).lines.toList =
      t.lines.toList ++ texts.map fun text => s!"[DEBUG] {text}" := by
  induction texts generalizing t with
  | nil => simp [writeLines]
  | cons text rest ih =>
    have hl : t.line text = { t with lines := t.lines.push s!"[DEBUG] {text}" } := by
      simp [line, h]
    have hr : (t.line text).broken = false := by rw [hl]; exact h
    change ((t.line text).writeLines rest).lines.toList = _
    rw [ih hr, hl]
    simp

end Trace

end GridWalk
