import GridWalk.Stream.Input
import Mathlib.Tactic

/-!
# Bytes in pieces

An input delivers its bytes in chunks, with interruptions between them. A reader that asks again
after an interruption sees none of this: as long as no chunk is empty and nothing else fails, it
reads the same from all inputs that hold the same bytes. Reading all of an input up to its first
end gives the bytes delivered before that end, or the first failure among the deliveries.
-/

namespace GridWalk

namespace Delivery

/-- A delivery that a reader does not notice: a chunk that is not empty, or an interruption. -/
def Seamless : Delivery → Prop
  | .chunk bytes => bytes ≠ []
  | .fault f => f.isInterrupted = true

instance : DecidablePred Seamless
  | .chunk bytes => inferInstanceAs (Decidable (bytes ≠ []))
  | .fault f => inferInstanceAs (Decidable (f.isInterrupted = true))

/-- The failure that a delivery brings, unless it can be asked for again. -/
def failure? : Delivery → Option Fault
  | .chunk _ => none
  | .fault f => if f.isInterrupted then none else some f

theorem failure?_eq_some_iff {d : Delivery} {f : Fault} :
    d.failure? = some f ↔ d = .fault f ∧ f.isInterrupted = false := by
  cases d with
  | chunk bytes => simp [failure?]
  | fault f' =>
    rw [failure?, Option.ite_none_left_eq_some, Option.some.injEq, Delivery.fault.injEq]
    constructor
    · rintro ⟨hf, rfl⟩
      exact ⟨rfl, by simpa using hf⟩
    · rintro ⟨rfl, hf⟩
      exact ⟨by simp [hf], rfl⟩

/-- What goes unnoticed is no failure. -/
theorem Seamless.failure?_eq_none {d : Delivery} (h : d.Seamless) : d.failure? = none := by
  cases d with
  | chunk bytes => rfl
  | fault f => exact if_pos h

end Delivery

namespace Input

/-- An input all of whose deliveries go unnoticed. -/
def Seamless (i : Input) : Prop := ∀ d ∈ i.coming, d.Seamless

instance : DecidablePred Seamless := fun i =>
  inferInstanceAs (Decidable (∀ d ∈ i.coming, d.Seamless))

/-- Two seamless inputs hold the same bytes, cut up in any way. -/
structure SameBytes (i j : Input) : Prop where
  /-- The first input is seamless. -/
  left : i.Seamless
  /-- The second input is seamless. -/
  right : j.Seamless
  /-- They hold the same bytes. -/
  data : i.data = j.data

/-! ### Reading characters -/

theorem peekComing_of_seamless {coming : List Delivery} (h : ∀ d ∈ coming, d.Seamless) :
    (peekComing coming).1 = .ok (coming.flatMap deliveredBytes).head? ∧
      (peekComing coming).2.Seamless := by
  fun_induction peekComing coming with
  | case1 => exact ⟨rfl, h⟩
  | case2 bytes coming =>
    obtain ⟨hb, hc⟩ := List.forall_mem_cons.1 h
    refine ⟨?_, hc⟩
    cases bytes with
    | nil => exact absurd rfl hb
    | cons b bytes => rfl
  | case3 f coming _ ih =>
    obtain ⟨_, hc⟩ := List.forall_mem_cons.1 h
    exact ih hc
  | case4 f coming hf => exact absurd (h _ List.mem_cons_self) hf

/-- Looking at the next byte shows the first byte of all those to come. -/
theorem peek_of_seamless {i : Input} (h : i.Seamless) :
    i.peek.1 = .ok i.data.head? ∧ i.peek.2.Seamless := by
  unfold peek
  split
  · next b rest hc => exact ⟨by simp [data, hc], h⟩
  · next hc =>
    have hp := peekComing_of_seamless h
    rwa [data, hc, List.nil_append]

namespace SameBytes

variable {i j : Input}

/-- Looking at the next byte shows the same. -/
theorem peek (h : SameBytes i j) : i.peek.1 = j.peek.1 ∧ SameBytes i.peek.2 j.peek.2 := by
  obtain ⟨hi, hi'⟩ := peek_of_seamless h.left
  obtain ⟨hj, hj'⟩ := peek_of_seamless h.right
  refine ⟨?_, hi', hj', ?_⟩
  · rw [hi, hj, h.data]
  · rw [data_peek, data_peek, h.data]

/-- Consuming the byte that was looked at leaves the same bytes. -/
theorem advance {i' j' : Input} {b : UInt8} (h : SameBytes i' j')
    (hi : i.peek = (.ok (some b), i')) (hj : j.peek = (.ok (some b), j')) :
    SameBytes i'.advance j'.advance := by
  have hdata := h.data
  rw [data_eq_cons_of_peek hi, data_eq_cons_of_peek hj] at hdata
  exact ⟨h.left, h.right, (List.cons.inj hdata).2⟩

/-- The tail bytes of a group are read alike, wherever a chunk ends among them. -/
theorem readTail (h : SameBytes i j) (n : ℕ) (group : List UInt8) :
    (readTail n group i).1 = (readTail n group j).1 ∧
      SameBytes (readTail n group i).2 (readTail n group j).2 := by
  induction n generalizing group i j with
  | zero => exact ⟨rfl, h⟩
  | succ n ih =>
    obtain ⟨hshow, hrest⟩ := h.peek
    rcases hi : i.peek with ⟨shown, i'⟩
    rcases hj : j.peek with ⟨shown', j'⟩
    rw [hi, hj] at hshow hrest
    dsimp only at hshow hrest
    subst hshow
    rw [Input.readTail, Input.readTail, hi, hj]
    rcases shown with f | _ | b
    · exact ⟨rfl, hrest⟩
    · exact ⟨rfl, hrest⟩
    · dsimp only
      split_ifs with hb
      · exact ih (hrest.advance hi hj) _
      · exact ⟨rfl, hrest⟩

/-- A character is read alike, wherever a chunk ends in it. -/
theorem readChar (h : SameBytes i j) :
    i.readChar.1 = j.readChar.1 ∧ SameBytes i.readChar.2 j.readChar.2 := by
  obtain ⟨hshow, hrest⟩ := h.peek
  rcases hi : i.peek with ⟨shown, i'⟩
  rcases hj : j.peek with ⟨shown', j'⟩
  rw [hi, hj] at hshow hrest
  dsimp only at hshow hrest
  subst hshow
  rw [Input.readChar, Input.readChar, hi, hj]
  rcases shown with f | _ | lead
  · exact ⟨rfl, hrest⟩
  · exact ⟨rfl, hrest⟩
  · have hnext := hrest.advance hi hj
    dsimp only
    cases Text.groupLength? lead with
    | none => exact ⟨rfl, hnext⟩
    | some n => exact hnext.readTail (n - 1) [lead]

end SameBytes

/-! ### Reading everything -/

/-- The deliveries before the first end of input. -/
def untilEnd (i : Input) : List Delivery := i.coming.takeWhile (· ≠ .chunk [])

/-- The bytes before the first end of input, whatever faults lie between them. -/
def source (i : Input) : List UInt8 := i.current ++ i.untilEnd.flatMap deliveredBytes

/-- The first failure before the first end of input, if there is one. -/
def failure? (i : Input) : Option Fault := i.untilEnd.findSome? Delivery.failure?

/-- Reading everything gives the bytes before the first end, unless a failure comes first. -/
theorem readAll_eq (i : Input) :
    i.readAll = match i.failure? with
      | some f => .error f
      | none => .ok i.source := by
  unfold readAll failure? source untilEnd
  generalize i.current = bytes
  generalize i.coming = coming
  fun_induction gather bytes coming with
  | case1 bytes => simp
  | case2 bytes coming => simp
  | case3 bytes b bs coming ih =>
    simpa [List.findSome?_cons, Delivery.failure?, deliveredBytes] using ih
  | case4 bytes f coming hf ih => simpa [Delivery.failure?, deliveredBytes, hf] using ih
  | case5 bytes f coming hf => simp [Delivery.failure?, hf]

/-- There is a failure before the first end exactly if some delivery before it failed and was not
just interrupted. -/
theorem exists_failure?_iff (i : Input) :
    (∃ f, i.failure? = some f) ↔ ∃ f, .fault f ∈ i.untilEnd ∧ f.isInterrupted = false := by
  constructor
  · rintro ⟨f, hf⟩
    obtain ⟨d, hd, hdf⟩ := List.exists_of_findSome?_eq_some hf
    obtain ⟨rfl, hf⟩ := Delivery.failure?_eq_some_iff.1 hdf
    exact ⟨f, hd, hf⟩
  · rintro ⟨f, hd, hf⟩
    have hfault := Delivery.failure?_eq_some_iff.2 ⟨rfl, hf⟩
    refine Option.isSome_iff_exists.1 (List.findSome?_isSome_iff.2 ⟨.fault f, hd, ?_⟩)
    rw [hfault]
    rfl

/-- Deliveries that go unnoticed up to the first end bring no failure. -/
theorem failure?_eq_none_of_seamless {i : Input} (h : ∀ d ∈ i.untilEnd, d.Seamless) :
    i.failure? = none :=
  List.findSome?_eq_none_iff.2 fun d hd => (h d hd).failure?_eq_none

end Input

end GridWalk
