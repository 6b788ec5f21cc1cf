import GridWalk.Grid.Point

/-!
# Sectors around the origin

The axes and the diagonals cut the plane into eight open octants. `Sector` names
them by compass, counter-clockwise from just above the positive `x` axis, and
collects the four lines in a ninth case. The classification compares exact
integers, so it holds for every pair of coordinates.
-/

namespace GridWalk

/-- A line through the origin or an open octant. -/
inductive Sector where
  /-- The two axes and the two diagonals, the origin included. -/
  | line
  | ene
  | nne
  | nnw
  | wnw
  | wsw
  | ssw
  | sse
  | ese
  deriving DecidableEq, Repr

/-- The sector that a point lies in. -/
def Point.sector (p : Point) : Sector :=
  let x := p.x.toInt
  let y := p.y.toInt
  if x = 0 ∨ y = 0 ∨ x.natAbs = y.natAbs then
    .line
  else if x.natAbs < y.natAbs then
    if 0 < y then (if 0 < x then .nne else .nnw) else (if 0 < x then .sse else .ssw)
  else
    if 0 < x then (if 0 < y then .ene else .ese) else (if 0 < y then .wnw else .wsw)

end GridWalk
