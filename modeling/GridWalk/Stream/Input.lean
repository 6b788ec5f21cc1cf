import GridWalk.Stream.Fault
import GridWalk.Text.Utf8

/-!
# Input streams

An input delivers bytes in chunks, with faults between them. When the current
chunk is used up, the next delivery is asked for. An empty chunk looks like the
end of input once. After the last delivery the input has ended for good.

`Input.readChar` decodes one character, and `Input.readAll` takes everything up to
the first end of input. Both make interrupted calls again.
-/

namespace GridWalk

/-- What an input delivers when it is asked for more. -/
inductive Delivery where
  | chunk (bytes : List UInt8)
  | fault (fault : Fault)
  deriving DecidableEq, Repr

/-- An input stream: the rest of the current chunk and the deliveries to come. -/
structure Input where
  /-- The bytes of the current chunk that are not consumed yet. -/
  current : List UInt8 := []
  /-- What comes after the current chunk. -/
  coming : List Delivery := []
  deriving DecidableEq, Repr

namespace Input

/-- The input that holds these bytes in one piece. -/
def ofBytes (bytes : List UInt8) : Input := { current := bytes }

/-- The bytes that a delivery holds. -/
def deliveredBytes : Delivery → List UInt8
  | .chunk bytes => bytes
  | .fault _ => []

/-- All bytes that are still to come, whatever faults lie between them. -/
def data (i : Input) : List UInt8 := i.current ++ i.coming.flatMap deliveredBytes

/-- Ask for the next delivery and look at its first byte. -/
def peekComing : List Delivery → Except Fault (Option UInt8) × Input
  | [] => (.ok none, {})
  | .chunk bytes :: coming => (.ok bytes.head?, ⟨bytes, coming⟩)
  | .fault f :: coming => if f.isInterrupted then peekComing coming else (.error f, ⟨[], coming⟩)

/-- Look at the next byte without consuming it. The end of input shows as `none`. -/
def peek (i : Input) : Except Fault (Option UInt8) × Input :=
  match i.current with
  | b :: _ => (.ok (some b), i)
  | [] => peekComing i.coming

/-- Consume the byte that was looked at. -/
def advance (i : Input) : Input := { i with current := i.current.drop 1 }

/-- Read `owed` more tail bytes of the group that has started, then decode it. A byte that
does not continue the group is left alone, and a fault loses what was consumed. -/
def readTail : Nat → List UInt8 → Input → Except Fault (Option Char) × Input
  | 0, group, i => (.ok (some ((Text.decode? group).getD Text.replacement)), i)
  | owed + 1, group, i =>
    match i.peek with
    | (.error f, i) => (.error f, i)
    | (.ok none, i) => (.ok (some Text.replacement), i)
    | (.ok (some b), i) =>
      if Text.isTail b then readTail owed (group ++ [b]) i.advance
      else (.ok (some Text.replacement), i)

/-- Decode one character. The end of input is `none`. A byte that starts no group, a group
cut short and a complete group that writes no character each give one replacement
character. -/
def readChar (i : Input) : Except Fault (Option Char) × Input :=
  match i.peek with
  | (.error f, i) => (.error f, i)
  | (.ok none, i) => (.ok none, i)
  | (.ok (some lead), i) =>
    match Text.groupLength? lead with
    | some n => readTail (n - 1) [lead] i.advance
    | none => (.ok (some Text.replacement), i.advance)

/-- Add what comes before the first end of input to the bytes gathered. -/
def gather (bytes : List UInt8) : List Delivery → Except Fault (List UInt8)
  | [] => .ok bytes
  | .chunk [] :: _ => .ok bytes
  | .chunk (b :: bs) :: coming => gather (bytes ++ b :: bs) coming
  | .fault f :: coming => if f.isInterrupted then gather bytes coming else .error f

/-- All bytes before the first end of input. -/
def readAll (i : Input) : Except Fault (List UInt8) := gather i.current i.coming

/-! ### What the operations do to the bytes still to come -/

@[simp] theorem data_ofBytes (bytes : List UInt8) : (ofBytes bytes).data = bytes := by
  simp [ofBytes, data]

theorem data_peekComing (coming : List Delivery) :
    (peekComing coming).2.data = coming.flatMap deliveredBytes := by
  fun_induction peekComing coming with
  | case1 => rfl
  | case2 bytes coming => simp [data, deliveredBytes]
  | case3 f coming h ih => simpa [deliveredBytes] using ih
  | case4 f coming h => simp [data, deliveredBytes]

/-- Looking at a byte loses none. -/
@[simp] theorem data_peek (i : Input) : i.peek.2.data = i.data := by
  unfold peek
  split
  · rfl
  · next h => rw [data_peekComing, data, h, List.nil_append]

/-- A byte that was looked at is the first of those to come. -/
theorem data_eq_cons_of_peek {i j : Input} {b : UInt8} (h : i.peek = (.ok (some b), j)) :
    j.data = b :: j.advance.data := by
  have hb : j.current.head? = some b := by
    unfold peek at h
    split at h
    · next c rest hc =>
      simp only [Prod.mk.injEq, Except.ok.injEq, Option.some.injEq] at h
      rw [← h.2, hc, List.head?_cons, h.1]
    · generalize i.coming = coming at h
      fun_induction peekComing coming with
      | case1 => simp at h
      | case2 bytes coming =>
        simp only [Prod.mk.injEq, Except.ok.injEq] at h
        rw [← h.2, h.1]
      | case3 f coming hf ih => exact ih h
      | case4 f coming hf => simp at h
  obtain ⟨rest, hr⟩ := List.head?_eq_some_iff.1 hb
  simp [data, advance, hr]

end Input

end GridWalk
