import GridWalk.Proofs.Failing
import Mathlib.Data.Int.ModEq
import Mathlib.Data.List.Perm.Basic
import Mathlib.Tactic

/-!
# Stack operations in place

The operations of a stack return a new stack or an error. Their reference is a list of cells, the
top last, that is changed in place and outlives an error: an operation takes cells off the end,
puts cells there and exchanges places, and one that finds too few cells has to put back what it
took. Both do the same to every stack, so a failed operation leaves the stack exactly as it was.
-/

namespace GridWalk

namespace Stack

/-- The operations of a stack that can fail. -/
inductive Operation where
  | pop
  | top
  | dup
  | swap (depth : UInt64)
  | sub
  | greater
  deriving DecidableEq, Repr

/-- What comes of an operation: the cell it answers with, if it does, and the stack behind it. -/
def operate (s : Stack) : Operation → Except Error (Option Cell × Stack)
  | .pop => s.pop.map fun r => (some r.1, r.2)
  | .top => s.top.map fun c => (some c, s)
  | .dup => s.dup.map (none, ·)
  | .swap depth => (s.swap depth).map (none, ·)
  | .sub => s.sub.map (none, ·)
  | .greater => s.greater.map (none, ·)

/-! ### The reference -/

/-- A computation that works on a list of cells, the top last, and keeps it through an error. -/
abbrev InPlace := EStateM Error (List Cell)

namespace InPlace

/-- Put a cell at the end. -/
def push (c : Cell) : InPlace Unit := modify (· ++ [c])

/-- Take the last cell off. -/
def pop : InPlace Cell := fun cells =>
  match cells.getLast? with
  | some c => .ok c cells.dropLast
  | none => .error .underflow cells

/-- Look at the last cell. -/
def top : InPlace Cell := fun cells =>
  match cells.getLast? with
  | some c => .ok c cells
  | none => .error .underflow cells

/-- Put a second copy of the last cell at the end. -/
def dup : InPlace Unit := do
  let c ← top
  push c

/-- Exchange the last cell with the one at `depth`, counted from the end. -/
def swap (depth : UInt64) : InPlace Unit := fun cells =>
  if depth = 0 ∨ cells.length < depth.toNat then
    .error (.outOfRange depth cells.length) cells
  else
    .ok () (cells.swap (cells.length - 1) (cells.length - depth.toNat))

/-- Take the last two cells off. A single cell is put back. -/
def popPair : InPlace (Cell × Cell) := do
  let a ← pop
  let b ← tryCatch pop fun e => do
    push a
    throw e
  return (b, a)

/-- Put a value of the last two cells in their place. -/
def combine (f : Cell → Cell → Cell) : InPlace Unit := do
  let (b, a) ← popPair
  push (f b a)

/-- Carry out an operation. -/
def operate : Operation → InPlace (Option Cell)
  | .pop => do return some (← pop)
  | .top => do return some (← top)
  | .dup => do
    dup
    return none
  | .swap depth => do
    swap depth
    return none
  | .sub => do
    combine fun b a => b - a
    return none
  | .greater => do
    combine fun b a => .ofBool (a < b)
    return none

/-! ### What the reference does to a list -/

section
variable {α : Type} {x : InPlace α} {handle : Error → InPlace α} {cells left : List Cell}

theorem run_tryCatch_of_ok {c : α} (h : x.run cells = .ok c left) :
    (tryCatch x handle).run cells = .ok c left := by
  change EStateM.tryCatch x handle cells = _
  change x cells = _ at h
  simp only [EStateM.tryCatch, h]

/-- What handles an error starts from the cells that the error leaves. -/
theorem run_tryCatch_of_error {e : Error} (h : x.run cells = .error e left) :
    (tryCatch x handle).run cells = (handle e).run left := by
  change EStateM.tryCatch x handle cells = _
  change x cells = _ at h
  simp only [EStateM.tryCatch, h]
  rfl

end

section
variable (base : List Cell) (a b : Cell)

theorem run_push : (push a).run base = .ok () (base ++ [a]) := rfl

theorem run_pop_nil : pop.run [] = .error .underflow [] := rfl

theorem run_pop_append : pop.run (base ++ [a]) = .ok a base := by
  simp [EStateM.run, pop]

theorem run_top_append : top.run (base ++ [a]) = .ok a (base ++ [a]) := by
  simp [EStateM.run, top]

theorem run_dup_append : dup.run (base ++ [a]) = .ok () (base ++ [a] ++ [a]) := by
  rw [dup, EStateM.run_bind, run_top_append]
  exact run_push _ a

/-- A single cell is put back. -/
theorem run_popPair_singleton : popPair.run [a] = .error .underflow [a] := by
  rw [popPair, EStateM.run_bind, show pop.run [a] = .ok a [] from rfl]
  dsimp only
  rw [EStateM.run_bind, run_tryCatch_of_error run_pop_nil, EStateM.run_bind, run_push]
  rfl

theorem run_popPair_append : popPair.run (base ++ [b] ++ [a]) = .ok (b, a) base := by
  rw [popPair, EStateM.run_bind, run_pop_append]
  dsimp only
  rw [EStateM.run_bind, run_tryCatch_of_ok (run_pop_append base b)]
  rfl

theorem run_combine_append (f : Cell → Cell → Cell) :
    (combine f).run (base ++ [b] ++ [a]) = .ok () (base ++ [f b a]) := by
  rw [combine, EStateM.run_bind, run_popPair_append]
  rfl

/-- A single cell is left as it was. -/
theorem run_combine_singleton (f : Cell → Cell → Cell) :
    (combine f).run [a] = .error .underflow [a] := by
  rw [combine, EStateM.run_bind, run_popPair_singleton]

end

end InPlace

/-! ### Exchanges -/

/-- Exchanging places and turning a list round can be done in either order. -/
theorem reverse_swap {α : Type} {l : List α} {i j : ℕ} (hi : i < l.length) (hj : j < l.length) :
    (l.swap i j).reverse = l.reverse.swap (l.length - 1 - i) (l.length - 1 - j) := by
  apply List.ext_getElem (by simp)
  intro k hk hk'
  simp only [List.length_reverse, List.length_swap] at hk hk'
  grind

/-- From the top, an exchange is with the place one less than the depth. -/
theorem swap_cells {s : Stack} {depth : UInt64} {k : ℕ} (hdepth : depth.toNat = k + 1)
    (hk : k < s.size) : s.swap depth = .ok ⟨s.cells.swap 0 k⟩ := by
  obtain ⟨cells⟩ := s
  cases cells with
  | nil => cases hk
  | cons a rest =>
    cases k with
    | zero => simp [swap, hdepth]
    | succ k =>
      have hlt : k < rest.length := Nat.lt_of_succ_lt_succ hk
      simp [swap, hdepth, List.getElem?_eq_getElem hlt]

/-- An exchange is done in the list of cells, or refused if the depth is zero or exceeds the size.
The top is the first of the cells and the last of the list. -/
theorem swap_eq (s : Stack) (depth : UInt64) :
    s.swap depth = if depth = 0 ∨ s.size < depth.toNat then .error (.outOfRange depth s.size)
      else .ok (ofList (s.toList.swap (s.size - 1) (s.size - depth.toNat))) := by
  split
  · next h => exact swap_eq_error_iff.2 ⟨h, rfl⟩
  · next h =>
    obtain ⟨hzero, hle⟩ := not_or.1 h
    have hpos : depth.toNat ≠ 0 := fun h0 => hzero (UInt64.toNat_inj.1 h0)
    obtain ⟨k, hk⟩ := Nat.exists_eq_succ_of_ne_zero hpos
    have hlt : k < s.size := by omega
    have hturn := @reverse_swap _ s.cells 0 k (Nat.zero_lt_of_lt hlt) hlt
    have hplace : s.cells.length - 1 - k = s.size - depth.toNat := by
      rw [hk, size]
      omega
    rw [Nat.sub_zero, hplace] at hturn
    rw [swap_cells hk hlt, ofList]
    exact congrArg (fun cells => Except.ok (Stack.mk cells)) (List.reverse_eq_iff.1 hturn)

/-! ### The operations against the reference -/

/-- The outcome of an operation for one who has a list of cells: where there is no new stack, the
list stays. -/
def settle {α : Type} (cells : List Cell) :
    Except Error (α × Stack) → EStateM.Result Error (List Cell) α
  | .ok (c, t) => .ok c t.toList
  | .error e => .error e cells

theorem toList_cons (a : Cell) (rest : List Cell) : toList ⟨a :: rest⟩ = toList ⟨rest⟩ ++ [a] :=
  toList_push ⟨rest⟩ a

theorem run_swap (s : Stack) (depth : UInt64) :
    (InPlace.operate (.swap depth)).run s.toList = settle s.toList (s.operate (.swap depth)) := by
  have hrun : (InPlace.swap depth).run s.toList =
      if depth = 0 ∨ s.size < depth.toNat then .error (.outOfRange depth s.size) s.toList
      else .ok () (s.toList.swap (s.size - 1) (s.size - depth.toNat)) := by
    rw [← length_toList]
    rfl
  rw [InPlace.operate, EStateM.run_bind, hrun, operate, swap_eq]
  by_cases h : depth = 0 ∨ s.size < depth.toNat
  · rw [if_pos h, if_pos h]
    rfl
  · rw [if_neg h, if_neg h]
    exact congrArg (EStateM.Result.ok none) (toList_ofList _).symm

/-- Without a second cell, the reference has taken the first one and puts it back. -/
theorem run_combine (s : Stack) (f : Cell → Cell → Cell) :
    (do InPlace.combine f; return none : InPlace (Option Cell)).run s.toList =
      settle s.toList ((s.combine f).map (none, ·)) := by
  obtain ⟨cells⟩ := s
  rcases cells with _ | ⟨a, _ | ⟨b, rest⟩⟩
  · rfl
  · rw [EStateM.run_bind, show toList ⟨[a]⟩ = [a] from rfl, InPlace.run_combine_singleton]
    rfl
  · rw [EStateM.run_bind, toList_cons, toList_cons, InPlace.run_combine_append, ← toList_cons]
    rfl

/-- A stack operation does what the reference does to the list of cells, and where it cannot be
done, the reference leaves the list as it was. -/
theorem run_operate (s : Stack) (o : Operation) :
    (InPlace.operate o).run s.toList = settle s.toList (s.operate o) := by
  cases o with
  | pop =>
    rcases s with ⟨_ | ⟨a, rest⟩⟩
    · rfl
    · rw [InPlace.operate, EStateM.run_bind, toList_cons, InPlace.run_pop_append]
      rfl
  | top =>
    rcases s with ⟨_ | ⟨a, rest⟩⟩
    · rfl
    · rw [InPlace.operate, EStateM.run_bind, toList_cons, InPlace.run_top_append, ← toList_cons]
      rfl
  | dup =>
    rcases s with ⟨_ | ⟨a, rest⟩⟩
    · rfl
    · rw [InPlace.operate, EStateM.run_bind, toList_cons, InPlace.run_dup_append, ← toList_cons,
        ← toList_cons]
      rfl
  | swap depth => exact s.run_swap depth
  | sub => exact s.run_combine _
  | greater => exact s.run_combine _

/-! ### What the operations do to the list of cells -/

/-- Two lists that differ in the exchange of two places. -/
structure Exchanged (cells cells' : List Cell) (i j : ℕ) : Prop where
  /-- The first place has what the second had. -/
  first : cells'[i]? = cells[j]?
  /-- The second place has what the first had. -/
  second : cells'[j]? = cells[i]?
  /-- All other places are as they were. -/
  others : ∀ k, k ≠ i → k ≠ j → cells'[k]? = cells[k]?

theorem exchanged_swap {cells : List Cell} {i j : ℕ} (hi : i < cells.length)
    (hj : j < cells.length) : Exchanged cells (cells.swap i j) i j := by
  rw [List.swap_eq_of_lt hi hj]
  refine ⟨?_, ?_, ?_⟩
  · grind
  · grind
  · intro k hki hkj
    rw [List.getElem?_set_ne (Ne.symm hkj), List.getElem?_set_ne (Ne.symm hki)]

/-- An exchange is done at the depths from one up to the size. -/
theorem exists_swap_iff (s : Stack) (depth : UInt64) :
    (∃ t, s.swap depth = .ok t) ↔ 1 ≤ depth.toNat ∧ depth.toNat ≤ s.toList.length := by
  rw [swap_eq, length_toList]
  by_cases h : depth = 0 ∨ s.size < depth.toNat
  · rw [if_pos h]
    rw [← UInt64.toNat_inj, UInt64.toNat_zero] at h
    exact ⟨nofun, fun _ => by omega⟩
  · rw [if_neg h]
    rw [← UInt64.toNat_inj, UInt64.toNat_zero] at h
    exact ⟨fun _ => by omega, fun _ => ⟨_, rfl⟩⟩

/-- What an exchange makes of the list of cells. -/
theorem toList_of_swap {s t : Stack} {depth : UInt64} (h : s.swap depth = .ok t) :
    t.toList = s.toList.swap (s.toList.length - 1) (s.toList.length - depth.toNat) := by
  rw [swap_eq] at h
  split at h
  · cases h
  · cases h
    rw [toList_ofList, length_toList]

/-- A second exchange at the same depth undoes the first. -/
theorem swap_swap {s t : Stack} {depth : UInt64} (h : s.swap depth = .ok t) :
    t.swap depth = .ok s := by
  have hlist := toList_of_swap h
  have hlength := congrArg List.length hlist
  rw [List.length_swap] at hlength
  obtain ⟨u, hu⟩ : ∃ u, t.swap depth = .ok u := by
    rw [exists_swap_iff, hlength, ← exists_swap_iff]
    exact ⟨t, h⟩
  have hback := toList_of_swap hu
  rw [hlength, hlist, List.swap_swap] at hback
  rw [hu, ← ofList_toList u, hback, ofList_toList]

end Stack

namespace Cell

/-- A difference is the integer in range that is congruent to the exact difference. -/
theorem sub_modEq (b a : Cell) :
    -2147483648 ≤ (b - a).val.toInt ∧ (b - a).val.toInt ≤ 2147483647 ∧
      (b - a).val.toInt ≡ b.val.toInt - a.val.toInt [ZMOD 4294967296] := by
  have hlo := Int32.le_toInt (b - a).val
  have hhi := Int32.toInt_lt (b - a).val
  have hsub : (b - a).val.toInt = (b.val.toInt - a.val.toInt).bmod 4294967296 :=
    Int32.toInt_sub b.val a.val
  refine ⟨hlo, by omega, ?_⟩
  rw [hsub]
  exact Int.bmod_emod

/-- Cells compare as the exact integers they hold. -/
theorem ofBool_lt (b a : Cell) :
    ofBool (a < b) = ⟨if a.val.toInt < b.val.toInt then 1 else 0⟩ := by
  have hlt : a < b ↔ a.val.toInt < b.val.toInt := Int32.lt_iff_toInt_lt
  by_cases h : a < b
  · rw [if_pos (hlt.1 h), decide_eq_true h]
    rfl
  · rw [if_neg (mt hlt.2 h), decide_eq_false h]
    rfl

end Cell

namespace Stack

/-- Stack operations do what the reference does. An exchange is done exactly at the depths from one
up to the size. It exchanges the top with the cell that many places from it, the top being the
first, leaves all other places alone, keeps the cells up to their order and is undone by a second
one. A difference wraps, and a comparison is exact. Operations that fail leave the stack as it was,
in the reference as in a machine. -/
theorem operations_match_reference :
    (∀ (s : Stack) (depth : UInt64),
      ((∃ t, s.swap depth = .ok t) ↔ 1 ≤ depth.toNat ∧ depth.toNat ≤ s.toList.length) ∧
      ∀ t, s.swap depth = .ok t →
        Exchanged s.toList t.toList (s.toList.length - 1) (s.toList.length - depth.toNat) ∧
        t.toList.Perm s.toList ∧ t.swap depth = .ok s) ∧
    (∀ (base : List Cell) (b a : Cell), ∃ r : Cell,
      (ofList (base ++ [b, a])).sub = .ok (ofList (base ++ [r])) ∧
      -2147483648 ≤ r.val.toInt ∧ r.val.toInt ≤ 2147483647 ∧
      r.val.toInt ≡ b.val.toInt - a.val.toInt [ZMOD 4294967296]) ∧
    (∀ (base : List Cell) (b a : Cell),
      (ofList (base ++ [b, a])).greater =
        .ok (ofList (base ++ [⟨if a.val.toInt < b.val.toInt then 1 else 0⟩]))) ∧
    (∀ (base : List Cell) (a : Cell),
      (ofList (base ++ [a])).dup = .ok (ofList (base ++ [a, a]))) ∧
    (∀ (s : Stack) (o : Operation),
      (∀ c t, s.operate o = .ok (c, t) → (InPlace.operate o).run s.toList = .ok c t.toList) ∧
      ∀ e, s.operate o = .error e → (InPlace.operate o).run s.toList = .error e s.toList) ∧
    ∀ (m : Machine) (a : Action) (cause : Cause),
      (m.execute a).1 = .error cause → (m.execute a).2.stack = m.stack := by
  refine ⟨?_, ?_, ?_, dup_ofList_append, ?_, ?_⟩
  · intro s depth
    refine ⟨exists_swap_iff s depth, fun t ht => ?_⟩
    obtain ⟨hpos, hle⟩ := (exists_swap_iff s depth).1 ⟨t, ht⟩
    refine ⟨?_, ?_, swap_swap ht⟩
    · rw [toList_of_swap ht]
      exact exchanged_swap (by omega) (by omega)
    · rw [toList_of_swap ht]
      exact List.swap_perm _ _ _
  · intro base b a
    exact ⟨b - a, combine_ofList_append base b a _, Cell.sub_modEq b a⟩
  · intro base b a
    rw [greater, combine_ofList_append, Cell.ofBool_lt]
  · intro s o
    have hrun := run_operate s o
    refine ⟨fun c t h => ?_, fun e h => ?_⟩
    · rw [hrun, h]
      rfl
    · rw [hrun, h]
      rfl
  · intro m a cause h
    rw [Machine.execute_of_error h]

end Stack

end GridWalk
