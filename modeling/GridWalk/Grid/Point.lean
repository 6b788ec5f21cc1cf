import GridWalk.Grid.Radii

/-!
# Points and moves of the grid

The grid has 32-bit coordinates, `x` growing to the right and `y` upward. A walker
takes unit steps in four directions. Distances are computed in the same 32 bits
and read without a sign, so they are exact wherever the exact value fits.
-/

namespace GridWalk

/-- The four directions of a unit step. -/
inductive Direction where
  | left
  | down
  | right
  | up
  deriving DecidableEq, Repr

/-- One tick of a walker: it stays put or takes a unit step. -/
inductive Move where
  | stay
  | go (direction : Direction)
  deriving DecidableEq, Repr

/-- A position on the grid, or a displacement. -/
@[ext] structure Point where
  /-- The coordinate that grows to the right. -/
  x : Int32
  /-- The coordinate that grows upward. -/
  y : Int32
  deriving DecidableEq, Repr

/-- The displacement of one step. -/
def Direction.delta : Direction → Point
  | .left => ⟨-1, 0⟩
  | .down => ⟨0, -1⟩
  | .right => ⟨1, 0⟩
  | .up => ⟨0, 1⟩

/-- The displacement of one tick. -/
def Move.delta : Move → Point
  | .stay => ⟨0, 0⟩
  | .go d => d.delta

namespace Point

/-- Where every walk starts and ends. -/
def origin : Point := ⟨0, 0⟩

/-- Displacements add coordinate by coordinate. -/
instance : Add Point where
  add p q := ⟨p.x + q.x, p.y + q.y⟩

/-- The neighbour one step away. -/
def step (p : Point) (d : Direction) : Point := p + d.delta

/-- The position after one tick. -/
def move (p : Point) (m : Move) : Point := p + m.delta

/-- The larger of the two coordinate distances. -/
def chebyshev (p q : Point) : UInt32 :=
  (max (q.x - p.x).abs (q.y - p.y).abs).toUInt32

/-- The sum of the two coordinate distances. -/
def manhattan (p q : Point) : UInt32 :=
  ((q.x - p.x).abs + (q.y - p.y).abs).toUInt32

/-- Both distances of `p` from `center`. -/
def radiiFrom (p center : Point) : Radii :=
  ⟨center.chebyshev p, center.manhattan p⟩

/-- Both distances of `p` from the origin. -/
def radii (p : Point) : Radii := p.radiiFrom origin

/-- The coordinates in parentheses, as in `(3, -1)`. -/
instance : ToString Point where
  toString p := s!"({p.x.toInt}, {p.y.toInt})"

end Point

end GridWalk
