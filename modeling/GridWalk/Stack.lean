import GridWalk.Cell

/-!
# The data stack

A stack is seen as the list of its cells from bottom to top (`toList`). An
operation that cannot be done is an error and produces no new stack, so a failed
operation leaves its caller with the stack it had.
-/

namespace GridWalk

/-- A stack of cells. -/
@[ext] structure Stack where
  /-- The cells, the top first. -/
  cells : List Cell := []
  deriving DecidableEq, Repr

namespace Stack

/-- Why an operation cannot be done. -/
inductive Error where
  /-- Too few cells. -/
  | underflow
  /-- No cell at this depth of a stack of this size. -/
  | outOfRange (depth : UInt64) (size : Nat)
  deriving DecidableEq, Repr

/-- The stack with these cells, given from bottom to top. -/
def ofList (cells : List Cell) : Stack := ⟨cells.reverse⟩

/-- The cells from bottom to top. -/
def toList (s : Stack) : List Cell := s.cells.reverse

/-- The number of cells. -/
def size (s : Stack) : Nat := s.cells.length

/-- Whether there is no cell. -/
def isEmpty (s : Stack) : Bool := s.cells.isEmpty

/-- Put a cell on top. -/
def push (s : Stack) (c : Cell) : Stack := ⟨c :: s.cells⟩

/-- Take the top off. -/
def pop (s : Stack) : Except Error (Cell × Stack) :=
  match s.cells with
  | c :: rest => .ok (c, ⟨rest⟩)
  | [] => .error .underflow

/-- Look at the top. -/
def top (s : Stack) : Except Error Cell :=
  match s.cells with
  | c :: _ => .ok c
  | [] => .error .underflow

/-- Put a second copy of the top on top. -/
def dup (s : Stack) : Except Error Stack :=
  match s.cells with
  | c :: rest => .ok ⟨c :: c :: rest⟩
  | [] => .error .underflow

/-- Exchange the top with the cell at `depth`, the top itself being at depth 1. -/
def swap (s : Stack) (depth : UInt64) : Except Error Stack :=
  match depth.toNat, s.cells with
  | k + 1, a :: rest =>
    match (a :: rest)[k]? with
    | some b => .ok ⟨(b :: rest).set k a⟩
    | none => .error (.outOfRange depth s.size)
  | _, _ => .error (.outOfRange depth s.size)

/-- Replace the top `a` and the cell `b` below it by `f b a`. -/
def combine (s : Stack) (f : Cell → Cell → Cell) : Except Error Stack :=
  match s.cells with
  | a :: b :: rest => .ok ⟨f b a :: rest⟩
  | _ => .error .underflow

/-- Replace the top two cells by their difference, the top being subtracted. -/
def sub (s : Stack) : Except Error Stack := s.combine fun b a => b - a

/-- Replace the top two cells by one if the lower is greater than the top, else by zero. -/
def greater (s : Stack) : Except Error Stack := s.combine fun b a => Cell.ofBool (a < b)

/-- The cells from bottom to top in brackets, as in `[1, -2]`. -/
instance : ToString Stack where
  toString s := "[" ++ ", ".intercalate (s.toList.map toString) ++ "]"

namespace Error

/-- The sentence that reports the error. -/
def message : Error → String
  | .underflow => "insufficient number of elements in the stack"
  | .outOfRange depth size => s!"cannot swap with depth {depth.toNat} on a stack of {size}"

/-- The code that classifies the error. -/
def code : Error → String
  | .underflow => "tsp::stack::underflow"
  | .outOfRange _ _ => "tsp::stack::out_of_range"

/-- Advice, where there is any. -/
def help : Error → Option String
  | .underflow => none
  | .outOfRange _ _ => some "swap depth must be between 1 and the stack length"

end Error

/-! ### What each operation does to the list of cells -/

@[simp] theorem toList_ofList (l : List Cell) : (ofList l).toList = l := by
  simp [ofList, toList]

@[simp] theorem ofList_toList (s : Stack) : ofList s.toList = s := by
  simp [ofList, toList]

@[simp] theorem length_toList (s : Stack) : s.toList.length = s.size := by
  simp [toList, size]

@[simp] theorem toList_push (s : Stack) (c : Cell) : (s.push c).toList = s.toList ++ [c] := by
  simp [push, toList]

/-- A stack is popped by taking the last cell of the list. -/
theorem pop_ofList_append (base : List Cell) (c : Cell) :
    (ofList (base ++ [c])).pop = .ok (c, ofList base) := by
  simp [ofList, pop]

/-- A stack is duplicated by repeating the last cell of the list. -/
theorem dup_ofList_append (base : List Cell) (c : Cell) :
    (ofList (base ++ [c])).dup = .ok (ofList (base ++ [c, c])) := by
  simp [ofList, dup]

/-- The top two cells are combined at the end of the list. -/
theorem combine_ofList_append (base : List Cell) (b a : Cell) (f : Cell → Cell → Cell) :
    (ofList (base ++ [b, a])).combine f = .ok (ofList (base ++ [f b a])) := by
  simp [ofList, combine]

end Stack

end GridWalk
