import GridWalk.Route.Walk
import Mathlib.Tactic

/-!
# Redrawing walks

A walker sees little of the walk it makes: where a step leads, at which distances a point is, and
whether a point is the origin. A redrawing gives the directions, the points and the places of
commands other names and keeps all that. Following commands commutes with it, so the redrawn walk
ends as the walk does, at the redrawn points and places.
-/

namespace GridWalk

/-- Other names for directions, points and places that no walker can tell from the old ones. -/
structure Redrawing where
  /-- The new direction. -/
  onDirection : Direction → Direction
  /-- The new point. -/
  onPoint : Point → Point
  /-- The new place in the text. -/
  onOffset : ℕ → ℕ
  /-- A step leads to the new point. -/
  onPoint_step : ∀ p d, onPoint (p.step d) = (onPoint p).step (onDirection d)
  /-- The new point is at the same distances. -/
  radii_onPoint : ∀ p, (onPoint p).radii = p.radii
  /-- Only the origin is drawn at the origin. -/
  onPoint_eq_origin : ∀ p, onPoint p = .origin ↔ p = .origin

namespace Redrawing

variable (f : Redrawing)

/-- The redrawn command. -/
def onCommand : Command → Command
  | .move d => .move (f.onDirection d)
  | .visit => .visit

/-- The redrawn command at its new place. -/
def onWaypoint (w : Waypoint) : Waypoint := ⟨f.onCommand w.command, f.onOffset w.offset⟩

/-- The redrawn visit. -/
def onVisit (v : Visit) : Visit :=
  { v with point := f.onPoint v.point, offset := f.onOffset v.offset }

/-- The walker on the redrawn walk. -/
def onWalker (w : Walker) : Walker :=
  { w with position := f.onPoint w.position, visits := w.visits.map f.onVisit }

/-- The end of the redrawn walk. -/
def onOutcome : Outcome → Outcome
  | .clash u v => .clash (f.onVisit u) (f.onVisit v)
  | .lost finish => .lost (f.onPoint finish)
  | .home visits trailing => .home (visits.map f.onVisit) (trailing.map f.onOffset)

section
variable (w : Walker)

theorem onWalker_go (d : Direction) :
    f.onWalker (w.go d) = (f.onWalker w).go (f.onDirection d) := by
  simp only [Walker.go, onWalker, f.onPoint_step]

theorem onVisit_visit (offset : ℕ) :
    f.onVisit (w.visit offset) = (f.onWalker w).visit (f.onOffset offset) := by
  simp [Walker.visit, onVisit, onWalker]

/-- Visits clash by their distances alone. -/
theorem rival?_onWalker (v : Visit) :
    (f.onWalker w).rival? (f.onVisit v) = (w.rival? v).map f.onVisit := by
  rw [Walker.rival?, onWalker, List.find?_map]
  congr 2
  funext u
  simp only [Function.comp, onVisit, f.radii_onPoint]

theorem onWalker_record (v : Visit) :
    f.onWalker (w.record v) = (f.onWalker w).record (f.onVisit v) := by
  simp [Walker.record, onWalker]

/-- At home, only what the next command is matters. -/
theorem arrive_onWalker (home : Visit) (commands : List Waypoint) :
    (f.onWalker w).arrive (f.onVisit home) (commands.map f.onWaypoint) =
      f.onOutcome (w.arrive home commands) := by
  rcases commands with _ | ⟨⟨d | _, offset⟩, rest⟩
  · simp [Walker.arrive, onWalker, onOutcome]
  · simp [Walker.arrive, onWalker, onOutcome, onWaypoint, onCommand]
  · simp [Walker.arrive, onOutcome, onWaypoint, onCommand, onVisit]

/-- Following redrawn commands leads to the redrawn end: whether a visit has a rival and whether it
is at home is kept. -/
theorem follow_onWalker (commands : List Waypoint) :
    (f.onWalker w).follow (commands.map f.onWaypoint) = f.onOutcome (w.follow commands) := by
  induction commands generalizing w with
  | nil => rfl
  | cons c rest ih =>
    rcases c with ⟨d | _, offset⟩
    · rw [List.map_cons, Walker.follow, ← ih, onWalker_go]
      rfl
    · change (f.onWalker w).follow (⟨.visit, f.onOffset offset⟩ :: rest.map f.onWaypoint) = _
      rw [Walker.follow, Walker.follow]
      simp only [← onVisit_visit, rival?_onWalker]
      cases w.rival? (w.visit offset) with
      | some u => rfl
      | none =>
        by_cases ho : (w.visit offset).point = .origin
        · have ho' : (f.onVisit (w.visit offset)).point = .origin := (f.onPoint_eq_origin _).2 ho
          simp only [Option.map_none, ho, ho', ite_true]
          exact f.arrive_onWalker w (w.visit offset) rest
        · have ho' : (f.onVisit (w.visit offset)).point ≠ .origin :=
            fun h => ho ((f.onPoint_eq_origin _).1 h)
          simp only [Option.map_none, ho, ho', ite_false]
          rw [← ih, onWalker_record]

end

/-- The walk of redrawn commands ends as the walk does, redrawn. -/
theorem walk_map (commands : List Waypoint) :
    walk (commands.map f.onWaypoint) = f.onOutcome (walk commands) := by
  have horigin : f.onPoint .origin = .origin := (f.onPoint_eq_origin _).2 rfl
  have hstart : f.onWalker {} = {} := by simp [onWalker, horigin]
  rw [walk, walk, ← follow_onWalker, hstart]

end Redrawing

end GridWalk
