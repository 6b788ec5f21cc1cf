import GridWalk.Instruction
import GridWalk.Route.Lexeme

/-!
# Walks

The walker starts at the origin, takes a step at each move and stops at each visit.
A visit away from the origin is recorded with the number of steps since the last
visit. Two visits at the same distances clash. The first visit to the origin ends
the walk, and of what follows only the next command matters: a move is trailing
text, a second visit clashes with the first. A walk that never visits the origin
is lost.
-/

namespace GridWalk

/-- A command and the number of bytes before it. -/
structure Waypoint where
  /-- The command. -/
  command : Command
  /-- Where it stands in the text. -/
  offset : Nat
  deriving DecidableEq, Repr

/-- The command that a lexeme marks, with its position. -/
def Lexeme.waypoint? (l : Lexeme) : Option Waypoint :=
  match l.mark with
  | .command k => some ⟨k, l.start⟩
  | _ => none

/-- A stop of the walker. -/
structure Visit where
  /-- The place of the visit among all visits, counted from one. -/
  index : Nat
  /-- The visited point. -/
  point : Point
  /-- The number of steps since the last visit, or since the start. -/
  steps : UInt64
  /-- Where the visit stands in the text. -/
  offset : Nat
  deriving DecidableEq, Repr

/-- The instruction that a visit compiles to. -/
def Visit.instruction (v : Visit) : Instruction := .ofVisit v.point v.steps

/-- A walker on the way. -/
structure Walker where
  /-- Where it stands. -/
  position : Point := .origin
  /-- How many steps it took since the last visit. -/
  steps : UInt64 := 0
  /-- The visits so far, the last one first. -/
  visits : List Visit := []
  deriving DecidableEq, Repr

/-- How a walk ends. -/
inductive Outcome where
  /-- The second of two visits at the same distances from the origin. -/
  | clash (first second : Visit)
  /-- The text ended away from home, at this point. -/
  | lost (finish : Point)
  /-- The origin was visited after these visits. Moves may follow from an offset on. -/
  | home (visits : List Visit) (trailing : Option Nat)
  deriving DecidableEq, Repr

namespace Walker

/-- Take one step. -/
def go (w : Walker) (d : Direction) : Walker :=
  { w with position := w.position.step d, steps := w.steps + 1 }

/-- The visit that the walker would make here and now. -/
def visit (w : Walker) (offset : Nat) : Visit where
  index := w.visits.length + 1
  point := w.position
  steps := w.steps
  offset := offset

/-- Record a visit and count steps afresh. -/
def record (w : Walker) (v : Visit) : Walker :=
  { w with steps := 0, visits := v :: w.visits }

/-- The recorded visit at the same distances as `v`, if there is one. -/
def rival? (w : Walker) (v : Visit) : Option Visit :=
  w.visits.find? fun u => u.point.radii == v.point.radii

/-- The end of a walk whose visit `home` is at the origin: only the next command matters. -/
def arrive (w : Walker) (home : Visit) : List Waypoint → Outcome
  | [] => .home w.visits.reverse none
  | ⟨.move _, offset⟩ :: _ => .home w.visits.reverse (some offset)
  | ⟨.visit, offset⟩ :: _ => .clash home { home with steps := 0, offset := offset }

/-- Follow the commands to the end of the walk. -/
def follow (w : Walker) : List Waypoint → Outcome
  | [] => .lost w.position
  | ⟨.move d, _⟩ :: rest => (w.go d).follow rest
  | ⟨.visit, offset⟩ :: rest =>
    let v := w.visit offset
    match w.rival? v with
    | some u => .clash u v
    | none => if v.point = .origin then w.arrive v rest else (w.record v).follow rest

end Walker

/-- The walk that these commands describe. -/
def walk (commands : List Waypoint) : Outcome := ({} : Walker).follow commands

end GridWalk
