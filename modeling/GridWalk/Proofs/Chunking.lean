import GridWalk.Proofs.Delivery
import GridWalk.Proofs.Halting

/-!
# What the cutting of the input cannot change

Only one action reads from the input, and it reads the same character from all seamless inputs
that hold the same bytes. Machines that differ in how their input is cut up therefore take the
same steps, wherever a chunk ends and however often the input is interrupted.
-/

namespace GridWalk.Machine

/-- Two machines agree on all that a step depends on, but for how their input is cut up. -/
def SameReading : Machine → Machine → Prop := Lockstep Eq Input.SameBytes Eq

/-- An action that does not read does the same on another input, and leaves it alone. -/
theorem execute_with_input (m : Machine) (i : Input) {a : Action} (ha : a ≠ .getChar) :
    ({ m with input := i } : Machine).execute a =
      ((m.execute a).1, { (m.execute a).2 with input := i }) := by
  have hstack (result : Except Stack.Error Stack) :
      ({ m with input := i } : Machine).onStack result =
        ((m.onStack result).1, { (m.onStack result).2 with input := i }) := by
    cases result <;> rfl
  cases a with
  | nop => rfl
  | push c => rfl
  | dup => exact hstack _
  | swap depth => exact hstack _
  | sub => exact hstack _
  | greater => exact hstack _
  | jumpZero radius =>
    simp only [execute]
    cases m.stack.top <;> rfl
  | getChar => exact absurd rfl ha
  | putChar =>
    simp only [execute]
    rcases m.stack.pop with e | ⟨c, s⟩ <;> rfl

namespace SameReading

variable {m n : Machine}

/-- An action that does not read has the same outcome: with the input of `n`, the machine `m` is
like `n`, and the input does not matter to the action. -/
theorem execute_of_ne (h : SameReading m n) {a : Action} (ha : a ≠ .getChar) :
    (m.execute a).1 = (n.execute a).1 ∧ SameReading (m.execute a).2 (n.execute a).2 := by
  have halike : Alike { m with input := n.input } n :=
    ⟨h.instructions, h.pc, h.stack, rfl, h.output⟩
  have hm : (m.execute a).2.input = m.input :=
    congrArg (·.2.input) (execute_with_input m m.input ha)
  obtain ⟨houtcome, hnext⟩ := halike.execute a
  rw [execute_with_input m n.input ha] at houtcome hnext
  refine ⟨houtcome, hnext.instructions, hnext.pc, hnext.stack, ?_, hnext.output⟩
  rw [hm, ← hnext.input]
  exact h.input

/-- Reading a character has the same outcome. -/
theorem execute_getChar (h : SameReading m n) :
    (m.execute .getChar).1 = (n.execute .getChar).1 ∧
      SameReading (m.execute .getChar).2 (n.execute .getChar).2 := by
  obtain ⟨hread, hrest⟩ := h.input.readChar
  simp only [Machine.execute]
  rcases hi : m.input.readChar with ⟨c, i⟩
  rcases hj : n.input.readChar with ⟨c', j⟩
  rw [hi, hj] at hread hrest
  dsimp only at hread hrest
  subst hread
  cases c with
  | error f => exact ⟨rfl, h.instructions, h.pc, h.stack, hrest, h.output⟩
  | ok c =>
    have hpush := congrArg (Stack.push · (c.elim .zero .ofChar)) h.stack
    exact ⟨rfl, h.instructions, h.pc, hpush, hrest, h.output⟩

/-- An action has the same outcome and leaves machines that agree. -/
theorem execute (h : SameReading m n) (a : Action) :
    (m.execute a).1 = (n.execute a).1 ∧ SameReading (m.execute a).2 (n.execute a).2 := by
  by_cases ha : a = .getChar
  · rw [ha]
    exact h.execute_getChar
  · exact h.execute_of_ne ha

/-- A step has the same outcome and leaves machines that agree. -/
theorem step (h : SameReading m n) : m.step.1 = n.step.1 ∧ SameReading m.step.2 n.step.2 :=
  Lockstep.step h fun i _ => h.execute i.action

theorem after (h : SameReading m n) (k : ℕ) : SameReading (m.after k) (n.after k) :=
  Lockstep.after (fun _ _ h => (step h).2) h k

end SameReading

/-- A program on inputs that hold the same bytes, in chunks that are not empty and with nothing but
interruptions between them, has the same counter, stack and output after every number of steps,
has the same bytes left to read, and its next step has the same outcome. -/
theorem chunking_invisible (p : Program) (sink : Sink) (input input' : Input)
    (h : input.Seamless) (h' : input'.Seamless) (hdata : input.data = input'.data) (n : ℕ) :
    let m := (p.machine input sink).after n
    let m' := (p.machine input' sink).after n
    m.pc = m'.pc ∧ m.stack = m'.stack ∧ m.output = m'.output ∧ m.input.data = m'.input.data ∧
      m.step.1 = m'.step.1 := by
  intro m m'
  have hfresh : SameReading (p.machine input sink) (p.machine input' sink) :=
    ⟨rfl, rfl, rfl, ⟨h, h', hdata⟩, rfl⟩
  have hsame : SameReading m m' := hfresh.after n
  exact ⟨hsame.pc, hsame.stack, hsame.output, hsame.input.data, hsame.step.1⟩

/-- A letter of two bytes in one piece, and cut in the middle with interruptions around the cut. -/
theorem chunking_invisible_cut :
    let p : Program := ⟨#[.ofVisit ⟨1, -2⟩ 3, .ofVisit ⟨3, -1⟩ 7], {}, by decide⟩
    let pause : Delivery := .fault ⟨.interrupted, "interrupted"⟩
    let whole : Input := ⟨[], [.chunk [0xc3, 0xa9]]⟩
    let cut : Input := ⟨[], [pause, .chunk [0xc3], pause, pause, .chunk [0xa9]]⟩
    whole.Seamless ∧ cut.Seamless ∧ whole.data = cut.data ∧
    ((p.machine whole {}).after 2).output.sink.accepted = [0xc3, 0xa9] ∧
    ((p.machine whole {}).after 2).output = ((p.machine cut {}).after 2).output := by
  intro p pause whole cut
  have hwhole : whole.Seamless := by decide
  have hcut : cut.Seamless := by decide
  have hdata : whole.data = cut.data := by decide
  obtain ⟨_, _, houtput, _⟩ := chunking_invisible p {} whole cut hwhole hcut hdata 2
  exact ⟨hwhole, hcut, hdata, by decide, houtput⟩

end GridWalk.Machine
