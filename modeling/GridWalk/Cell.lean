import GridWalk.Text.Utf8

/-!
# Cells

A cell of the stack is a signed 32-bit integer that doubles as a character.
Subtraction wraps, counts that do not fit saturate, and a cell that is no scalar
value reads as the replacement character.
-/

namespace GridWalk

/-- The largest signed 32-bit integer. -/
def maxInt32 : Nat := 2147483647

/-- A signed 32-bit integer. -/
@[ext] structure Cell where
  /-- The integer held. -/
  val : Int32
  deriving DecidableEq, Repr

namespace Cell

/-- The cell that ends texts and takes jumps. -/
def zero : Cell := ⟨0⟩

instance : Inhabited Cell := ⟨zero⟩

/-- The cell for a count, at most `maxInt32`. -/
def ofCount (n : UInt64) : Cell :=
  ⟨Int32.ofNat (min n.toNat maxInt32)⟩

/-- The cell that holds the code of a character. -/
def ofChar (c : Char) : Cell := ⟨Int32.ofNat c.toNat⟩

/-- One for a comparison that holds, zero for one that does not. -/
def ofBool (b : Bool) : Cell := if b then ⟨1⟩ else ⟨0⟩

/-- The character that a cell encodes. Negative cells, surrogates and codes beyond the
last plane encode none and read as the replacement character. -/
def toChar (c : Cell) : Char :=
  let n := c.val.toInt
  if 0 ≤ n ∧ n.toNat.isValidChar then Char.ofNat n.toNat else Text.replacement

/-- Whether the cell is zero. -/
def isZero (c : Cell) : Bool := c.val == 0

/-- Subtraction modulo `2 ^ 32`. -/
instance : Sub Cell where
  sub a b := ⟨a.val - b.val⟩

/-- Cells compare as signed integers. -/
instance : Ord Cell where
  compare a b := compare a.val b.val

/-- Cells compare as signed integers. -/
instance : LT Cell where
  lt a b := a.val < b.val

instance (a b : Cell) : Decidable (a < b) :=
  inferInstanceAs (Decidable (a.val < b.val))

/-- The integer in decimal. -/
instance : ToString Cell where
  toString c := toString c.val.toInt

end Cell

end GridWalk
