import GridWalk.Cell
import GridWalk.Grid.Sector

/-!
# Instructions

An instruction is what one visit compiles to: an action, chosen by the sector of
the visited point, with the step count as its operand where it has one. The
instruction remembers the point and its distances from the origin.
-/

namespace GridWalk

/-- What an instruction does. -/
inductive Action where
  /-- Nothing. -/
  | nop
  /-- Push a cell. -/
  | push (cell : Cell)
  /-- Push a second copy of the top. -/
  | dup
  /-- Exchange the top with the cell at this depth. -/
  | swap (depth : UInt64)
  /-- Replace the top two cells by their difference. -/
  | sub
  /-- Replace the top two cells by the outcome of their comparison. -/
  | greater
  /-- If the top is zero, go on at the first instruction at this radius or beyond. -/
  | jumpZero (radius : UInt32)
  /-- Read a character and push it. -/
  | getChar
  /-- Pop a character and write it. -/
  | putChar
  deriving DecidableEq, Repr

namespace Action

/-- The action of a visit in a sector after a number of steps. The operand of `push` and
the radius of `jumpZero` are the largest of their type for counts beyond it. -/
def ofSector (sector : Sector) (steps : UInt64) : Action :=
  match sector with
  | .line => .nop
  | .ene => .push (.ofCount steps)
  | .nne => .dup
  | .nnw => .swap steps
  | .wnw => .sub
  | .wsw => .greater
  | .ssw => .jumpZero (UInt32.ofNat (min steps.toNat 4294967295))
  | .sse => .getChar
  | .ese => .putChar

/-- The word for the action in listings. -/
def name : Action → String
  | .nop => "nop"
  | .push _ => "push"
  | .dup => "dup"
  | .swap _ => "swap"
  | .sub => "sub"
  | .greater => "greater"
  | .jumpZero _ => "jump-zero"
  | .getChar => "getchar"
  | .putChar => "putchar"

/-- The operand as listings show it. The 64 bits of a swap depth are read as a signed
number. -/
def operand : Action → Option Int
  | .push c => some c.val.toInt
  | .swap depth => some depth.toInt64.toInt
  | .jumpZero radius => some radius.toNat
  | _ => none

end Action

/-- An action with the point it was compiled from. -/
@[ext] structure Instruction where
  /-- What the instruction does. -/
  action : Action
  /-- The visited point. -/
  point : Point
  /-- The distances of the point, which place the instruction in a program. -/
  radii : Radii
  deriving DecidableEq, Repr

namespace Instruction

/-- The instruction of visiting `point` after `steps` moves. -/
def ofVisit (point : Point) (steps : UInt64) : Instruction where
  action := .ofSector point.sector steps
  point := point
  radii := point.radii

/-- The name, the operand if there is one, and the point, as in `push 5 (4, 1)`. -/
instance : ToString Instruction where
  toString i :=
    match i.action.operand with
    | some n => s!"{i.action.name} {n} {i.point}"
    | none => s!"{i.action.name} {i.point}"

end Instruction

end GridWalk
