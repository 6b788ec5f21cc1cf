import GridWalk.Proofs.Stepping

/-!
# Conservation of output

Whatever the sink does, the bytes that it has accepted and the bytes that still wait in
the buffer are together the bytes of all cells popped for writing, in the order in which
they were popped. This holds after every sequence of steps and runs, whether or not any
of them failed.
-/

namespace GridWalk

/-- The cell that an action pops in order to write it, if there is one. -/
def Stack.poppedBy (s : Stack) : Action → List Cell
  | .putChar => s.cells.take 1
  | _ => []

/-- The bytes that write these cells as characters. -/
def spell (cells : List Cell) : List UInt8 := cells.flatMap fun c => Text.encode c.toChar

namespace Output

/-- A flush that ends well leaves nothing waiting. -/
theorem buffer_flush {o : Output} (h : o.flush.1 = .ok ()) : o.flush.2.buffer = [] := by
  cases hd : o.drain with
  | mk verdict o' =>
    cases verdict with
    | error f => simp [flush, hd] at h
    | ok u =>
      have hb : o.drain.2.buffer = [] := buffer_offer (congrArg Prod.fst hd)
      simpa [flush, hd] using hb

end Output

@[simp] theorem spell_append (a b : List Cell) : spell (a ++ b) = spell a ++ spell b :=
  List.flatMap_append

namespace Machine

/-- The cell that the next instruction pops in order to write it, if there is one. -/
def popped (m : Machine) : List Cell :=
  (m.program.instructions[m.pc]?).elim [] fun i => m.stack.poppedBy i.action

/-- The cells popped for writing by the next instructions of these machines. -/
def poppedAlong (trail : List Machine) : List Cell := trail.flatMap popped

theorem poppedAlong_nil : poppedAlong [] = [] := rfl

theorem poppedAlong_cons (m : Machine) (trail : List Machine) :
    poppedAlong (m :: trail) = m.popped ++ poppedAlong trail := rfl

theorem poppedAlong_append (a b : List Machine) :
    poppedAlong (a ++ b) = poppedAlong a ++ poppedAlong b :=
  List.flatMap_append

/-- An action writes the cell that it pops, and nothing else. -/
theorem written_execute (m : Machine) (a : Action) :
    (m.execute a).2.output.written = m.output.written ++ spell (m.stack.poppedBy a) := by
  have hstack (result : Except Stack.Error Stack) :
      (m.onStack result).2.output.written = m.output.written ++ spell [] := by
    cases result <;> exact (List.append_nil _).symm
  cases a with
  | nop => exact (List.append_nil _).symm
  | push c => exact (List.append_nil _).symm
  | dup => exact hstack _
  | swap depth => exact hstack _
  | sub => exact hstack _
  | greater => exact hstack _
  | jumpZero radius =>
    unfold execute
    cases m.stack.top <;> exact (List.append_nil _).symm
  | getChar =>
    unfold execute
    rcases m.input.readChar with ⟨_ | c, i⟩ <;> exact (List.append_nil _).symm
  | putChar =>
    cases hs : m.stack.cells with
    | nil => simp [execute, Stack.pop, Stack.poppedBy, hs, spell]
    | cons c rest => simp [execute, Stack.pop, Stack.poppedBy, hs, spell]

/-- A step writes the cell that its instruction pops, whatever the flush makes of it. -/
theorem written_step (m : Machine) :
    m.step.2.output.written = m.output.written ++ spell m.popped := by
  cases hi : m.program.instructions[m.pc]? with
  | none =>
    rw [step_of_none hi, popped, hi]
    exact (List.append_nil _).symm
  | some i =>
    rw [step_of_some hi, output_perform, Output.written_flush, written_execute, popped, hi]
    rfl

/-- The verdict on a step is good only if the instruction and the flush ended well. -/
theorem verdict_eq_ok {executed : Except Cause Flow} {flushed : Except Fault Unit}
    (h : verdict executed flushed = .ok ()) : flushed = .ok () := by
  cases executed with
  | error cause => simp [verdict] at h
  | ok flow =>
    cases flushed with
    | error f => simp [verdict] at h
    | ok u => rfl

/-- A step that ends well leaves nothing in the buffer. -/
theorem buffer_step {m : Machine} (h : m.isHalted = false) (hs : m.step.1 = .ok ()) :
    m.step.2.output.buffer = [] := by
  cases hi : m.program.instructions[m.pc]? with
  | none => simp [isHalted_iff.2 hi] at h
  | some i =>
    rw [step_of_some hi] at hs ⊢
    have hv : (m.perform i).1 = .ok () := by
      cases hp : (m.perform i).1 with
      | ok u => rfl
      | error cause => simp [hp, Except.mapError] at hs
    rw [perform_fst] at hv
    rw [output_perform]
    exact Output.buffer_flush (verdict_eq_ok hv)

/-- A run writes the cells popped by the instructions that it executes. -/
theorem Runs.written_eq {r : Report} {m l : Machine} {trail : List Machine}
    {result : Except Failure Report} (h : Runs r m trail result l) :
    l.output.written = m.output.written ++ spell (poppedAlong trail) := by
  induction h with
  | halted _ => exact (List.append_nil _).symm
  | ok _ _ _ ih => rw [ih, written_step, poppedAlong_cons, spell_append, List.append_assoc]
  | strict _ _ _ => rw [written_step, poppedAlong_cons, poppedAlong_nil, List.append_nil]
  | @lenient r m f trail result l _ _ _ _ ih =>
    rw [ih, (Alike.traceFailure m.step.2 f).output, written_step, poppedAlong_cons, spell_append,
      List.append_assoc]

/-- Calls write the cells popped by the instructions that they execute. -/
theorem Reaches.written_eq {m k : Machine} {trail : List Machine} (h : Reaches m trail k) :
    k.output.written = m.output.written ++ spell (poppedAlong trail) := by
  induction h with
  | refl => exact (List.append_nil _).symm
  | @step trail k _ ih =>
    rw [written_step, ih, poppedAlong_append, spell_append, List.append_assoc]
    cases hh : k.isHalted with
    | true => rw [popped, isHalted_iff.1 hh]; rfl
    | false => simp [poppedAlong]
  | @run trail k limit result l _ hrun ih =>
    rw [(runs_of_runFrom? hrun).written_eq, (Alike.traceListing k).output, ih, poppedAlong_append,
      spell_append, List.append_assoc]

/-- Giving a machine up well hands out everything that was written. -/
theorem accepted_close {m : Machine} (h : m.close.1 = .ok ()) :
    m.close.2.accepted = m.output.written := by
  have hb : m.output.drain.2.buffer = [] := Output.buffer_offer h
  have hw := Output.written_drain m.output
  rw [Output.written, hb, List.append_nil] at hw
  exact hw

/-- After every sequence of steps and runs, accepted and waiting bytes together are the bytes of
all cells popped for writing. Nothing waits after a step that ended well, and a machine that
is given up well hands out exactly these bytes. -/
theorem output_conserved (p : Program) (input : Input) (replies : List Reply)
    (flushes : List (Option Fault)) :
    (∀ trail k, Reaches (p.machine input { replies, flushes }) trail k →
      k.output.sink.accepted ++ k.output.buffer = spell (poppedAlong trail) ∧
      (k.close.1 = .ok () → k.close.2.accepted = spell (poppedAlong trail))) ∧
    ∀ k : Machine, k.isHalted = false → k.step.1 = .ok () → k.step.2.output.buffer = [] := by
  constructor
  · intro trail k h
    have hw : k.output.written = spell (poppedAlong trail) := h.written_eq
    exact ⟨hw, fun hc => (accepted_close hc).trans hw⟩
  · intro k hh hs
    exact buffer_step hh hs

/-- A program that writes one character of two bytes to a sink that accepts one byte and then
fails: the second byte waits, and goes out when the machine is given up. -/
theorem output_conserved_cut_short :
    let p : Program := ⟨#[.ofVisit ⟨2, 1⟩ 233, .ofVisit ⟨3, -1⟩ 7], {}, by decide⟩
    let m := p.machine {} { replies := [.upTo 1, .fault ⟨.brokenPipe, "pipe"⟩] }
    (∃ trail k, Reaches m trail k ∧ k.output.sink.accepted = [0xc3] ∧
      k.output.sink.accepted ++ k.output.buffer = [0xc3, 0xa9] ∧
      k.close.1 = .ok () ∧ k.close.2.accepted = [0xc3, 0xa9]) ∧
    m.isHalted = false ∧ m.step.1 = .ok () ∧ m.step.2.output.buffer = [] := by
  intro p m
  have hr : Reaches m _ m.step.2.step.2 := Reaches.refl.step.step
  have hc : m.step.2.step.2.close.1 = .ok () := by decide
  have hh : m.isHalted = false := by decide
  have hs : m.step.1 = .ok () := by decide
  obtain ⟨hreach, hempty⟩ := output_conserved p {} [.upTo 1, .fault ⟨.brokenPipe, "pipe"⟩] []
  obtain ⟨hw, hclose⟩ := hreach _ _ hr
  exact ⟨⟨_, _, hr, by decide, hw.trans (by decide), hc, (hclose hc).trans (by decide)⟩,
    hh, hs, hempty m hh hs⟩

end Machine

end GridWalk
