import GridWalk.Instruction

/-!
# Programs

A program holds its instructions in the order of their distances from the origin,
together with the configuration it runs under. `Program.ofList` lays instructions
out by a stable sort, so those at equal distances keep their order. The order is
part of the type: a jump is resolved by bisection, which relies on it.
-/

namespace GridWalk

/-- How a program reacts to failures and whether it traces itself. -/
structure Config where
  /-- Stop at the first failing instruction instead of skipping it. -/
  strict : Bool := false
  /-- Write a listing and a line for each step to the trace. -/
  debug : Bool := false
  deriving DecidableEq, Repr

/-- Instructions in layout order. -/
@[ext] structure Program where
  /-- The instructions in the order in which they run. -/
  instructions : Array Instruction
  /-- The configuration to run under. -/
  config : Config := {}
  /-- No instruction is farther out than one after it. -/
  ordered : instructions.toList.Pairwise fun a b => a.radii ≤ b.radii
  deriving DecidableEq

/-- The least index from `lo` up to `hi` at which `p` fails, when `p` holds on an initial
part of that range only. -/
def bisect (p : Nat → Bool) (lo hi : Nat) : Nat :=
  if lo < hi then
    let mid := lo + (hi - lo) / 2
    if p mid then bisect p (mid + 1) hi else bisect p lo mid
  else
    lo
termination_by hi - lo

namespace Program

/-- Lay instructions out by distance, keeping the order of those at equal distances. -/
def ofList (l : List Instruction) (config : Config := {}) : Program where
  instructions := (l.mergeSort fun a b => decide (a.radii ≤ b.radii)).toArray
  config := config
  ordered := by
    have h := @List.pairwise_mergeSort Instruction (fun a b => decide (a.radii ≤ b.radii))
      (fun a b c hab hbc => by
        simp only [decide_eq_true_eq] at hab hbc ⊢
        exact Radii.le_trans hab hbc)
      (fun a b => by
        simp only [Bool.or_eq_true, decide_eq_true_eq]
        exact Radii.le_total a.radii b.radii) l
    simpa using h

/-- Laying out loses and adds no instruction. -/
theorem toList_ofList_perm (l : List Instruction) (config : Config) :
    (ofList l config).instructions.toList.Perm l := by
  simpa [ofList] using List.mergeSort_perm l _

/-- The number of instructions. -/
def size (p : Program) : Nat := p.instructions.size

/-- Whether there is no instruction. -/
def isEmpty (p : Program) : Bool := p.instructions.isEmpty

/-- The index of the first instruction whose Chebyshev distance is at least `radius`, or
the size of the program when there is none. -/
def jumpTarget (p : Program) (radius : UInt32) : Nat :=
  bisect (fun i => p.instructions[i]?.any fun a => a.radii.chebyshev < radius) 0 p.size

/-- The instructions one to a line, in layout order. -/
def listing (p : Program) : String :=
  "\n".intercalate (p.instructions.toList.map toString)

end Program

end GridWalk
