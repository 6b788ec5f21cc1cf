import GridWalk.Proofs.Decoding
import GridWalk.Proofs.Stepping

/-!
# Steps that end well

`Advances` follows a machine over a number of steps that all end well, up to what it traces
on the way. Such stretches can be put one behind the other, and one that leads to a halted
machine is a run that skips nothing. A `quiet` machine reads from memory and writes to a sink
that accepts everything. Its next step is determined by what its instruction does to the
stack, the bytes to come and the bytes written.
-/

namespace GridWalk

namespace Machine

/-- So many steps, all of which end well, lead from a machine to one like another. -/
inductive Advances : ℕ → Machine → Machine → Prop
  | refl {m k} : Alike m k → Advances 0 m k
  | step {n m k} : m.isHalted = false → m.step.1 = .ok () → Advances n m.step.2 k →
      Advances (n + 1) m k

namespace Advances

theorem of_alike {n : ℕ} {m m' k : Machine} (ha : Alike m m') (h : Advances n m' k) :
    Advances n m k := by
  induction h generalizing m with
  | refl h => exact .refl (ha.trans h)
  | step hh hs _ ih =>
    obtain ⟨hstep, hnext⟩ := ha.step
    exact .step (ha.isHalted_eq.trans hh) (hstep.trans hs) (ih hnext)

theorem trans {n n' : ℕ} {m k l : Machine} (h : Advances n m k) (h' : Advances n' k l) :
    Advances (n' + n) m l := by
  induction h with
  | refl ha => exact h'.of_alike ha
  | step hh hs _ ih => exact .step hh hs (ih h')

instance {n n' : ℕ} : Trans (Advances n) (Advances n') (Advances (n' + n)) :=
  ⟨trans⟩

/-- Steps that end well and lead to a halted machine make up a run that counts them and skips
nothing. -/
theorem exists_runFrom? {n limit : ℕ} {m k : Machine} (h : Advances n m k)
    (hk : k.isHalted = true) (hl : n ≤ limit) (r : Report) :
    ∃ l, runFrom? limit r m = some (.ok { r with steps := r.steps + n }, l) ∧ Alike l k := by
  induction h generalizing limit r with
  | @refl m k ha => exact ⟨m, runFrom?_of_halted (ha.isHalted_eq.trans hk), ha⟩
  | @step n m k hh hs _ ih =>
    obtain ⟨limit, rfl⟩ := Nat.exists_eq_add_one_of_ne_zero (Nat.ne_zero_of_lt hl)
    obtain ⟨l, hrun, hlk⟩ := ih hk (Nat.le_of_succ_le_succ hl) { r with steps := r.steps + 1 }
    refine ⟨l, ?_, hlk⟩
    rw [runFrom?_succ_of_ok hh hs, hrun, Nat.add_right_comm, Nat.add_assoc]

/-- The same for a whole run. -/
theorem exists_run? {n limit : ℕ} {m k : Machine} (h : Advances n m k) (hk : k.isHalted = true)
    (hl : n ≤ limit) : ∃ l, m.run? limit = some (.ok ⟨n, 0⟩, l) ∧ Alike l k := by
  have hrun := (h.of_alike (Alike.traceListing m)).exists_runFrom? hk hl {}
  rwa [Nat.zero_add] at hrun

end Advances

/-- One step ends well if its instruction and the flush behind it do. -/
theorem advances_of_execute {m k : Machine} {i : Instruction} {flow : Flow} {o : Output}
    (hi : m.program.instructions[m.pc]? = some i) (he : m.execute i.action = (.ok flow, k))
    (hf : k.output.flush = (.ok (), o)) :
    Advances 1 m { k with output := o, pc := nextPc m.pc (.ok flow) } := by
  have hh : m.isHalted = false := by
    rw [Bool.eq_false_iff, ne_eq, isHalted_iff, hi]
    exact Option.some_ne_none i
  have hs : m.step.1 = .ok () := by
    rw [step_of_some hi, perform_fst, he, hf]
    rfl
  refine .step hh hs (.refl ?_)
  rw [step_of_some hi]
  refine ⟨?_, ?_, ?_, ?_, ?_⟩
  · have hprogram := program_execute m i.action
    rw [he] at hprogram
    rw [program_perform, hprogram]
  · rw [pc_perform, he]
  · rw [stack_perform, he]
  · rw [input_perform, he]
  · rw [output_perform, he, hf]

end Machine

namespace Cell

theorem toInt_ofChar (c : Char) : (ofChar c).val.toInt = c.toNat := by
  have hc := Text.toNat_lt_of_char c
  exact Int32.toInt_ofNat_of_lt (by omega)

/-- The cell of a character encodes that character. -/
@[simp] theorem toChar_ofChar (c : Char) : (ofChar c).toChar = c := by
  have hv : c.toNat.isValidChar := c.valid
  rw [toChar, toInt_ofChar, Int.toNat_natCast, if_pos ⟨Int.natCast_nonneg _, hv⟩]
  exact Char.ofNat_toNat c

/-- Of the characters, only the one with code zero takes jumps. -/
theorem isZero_ofChar (c : Char) : (ofChar c).isZero = decide (c = '\x00') := by
  rw [isZero, Bool.eq_iff_iff, beq_iff_eq, decide_eq_true_eq, ← Int32.toInt_inj, toInt_ofChar,
    Int32.toInt_zero, Int.natCast_eq_zero]
  constructor
  · intro h
    rw [← Char.ofNat_toNat c, h]
  · rintro rfl
    rfl

end Cell

/-- A sink that accepts everything takes the whole buffer. -/
theorem Output.flush_of_accepting (buffer accepted : List UInt8) :
    Output.flush ⟨buffer, { accepted }⟩ =
      (.ok (), ⟨[], { accepted := accepted ++ buffer }⟩) := by
  cases buffer with
  | nil => simp [flush, drain, offer, Sink.flush]
  | cons b buffer => simp [flush, drain, offer, Sink.flush]

namespace Program

/-- A machine that reads these bytes from memory and whose sink accepts everything. -/
def quiet (p : Program) (pc : ℕ) (cells : List Cell) (bytes accepted : List UInt8) : Machine where
  program := p
  pc := pc
  stack := ⟨cells⟩
  input := .ofBytes bytes
  output := { sink := { accepted } }

theorem machine_eq_quiet (p : Program) (bytes : List UInt8) :
    p.machine (.ofBytes bytes) {} = p.quiet 0 [] bytes [] :=
  rfl

section
variable {p : Program} {pc : ℕ} {cells cells' : List Cell} {bytes bytes' accepted : List UInt8}
  {i : Instruction}

open Machine

/-- A quiet machine makes a step that writes nothing. -/
theorem advances_quiet (flow : Flow) (hi : p.instructions[pc]? = some i)
    (he : (p.quiet pc cells bytes accepted).execute i.action =
      (.ok flow, p.quiet pc cells' bytes' accepted)) :
    Advances 1 (p.quiet pc cells bytes accepted)
      (p.quiet (nextPc pc (.ok flow)) cells' bytes' accepted) := by
  have hf := Output.flush_of_accepting [] accepted
  rw [List.append_nil] at hf
  exact advances_of_execute hi he hf

/-- A quiet machine writes the top of its stack. -/
theorem advances_quiet_put {x : Cell} {c : Char} (hi : p.instructions[pc]? = some i)
    (ha : i.action = .putChar) (hx : x.toChar = c) :
    Advances 1 (p.quiet pc (x :: cells) bytes accepted)
      (p.quiet (pc + 1) cells bytes (accepted ++ Text.encode c)) := by
  have he : (p.quiet pc (x :: cells) bytes accepted).execute i.action =
      (.ok .next, { p.quiet pc cells bytes accepted with
        output := ⟨Text.encode c, { accepted }⟩ }) := by
    rw [ha, ← hx]
    rfl
  exact advances_of_execute hi he (Output.flush_of_accepting (Text.encode c) accepted)

/-- A quiet machine reads the next character, or a zero when no byte is left. -/
theorem advances_quiet_get {o : Option Char} {x : Cell} (hi : p.instructions[pc]? = some i)
    (ha : i.action = .getChar)
    (hr : (Input.ofBytes bytes).readChar = (.ok o, .ofBytes bytes'))
    (hx : o.elim .zero .ofChar = x) :
    Advances 1 (p.quiet pc cells bytes accepted)
      (p.quiet (pc + 1) (x :: cells) bytes' accepted) := by
  refine advances_quiet .next hi ?_
  rw [ha, ← hx]
  simp only [quiet, execute, hr]
  rfl

/-- A quiet machine jumps on a zero and keeps it. -/
theorem advances_quiet_jump {x : Cell} {radius : UInt32} {target : ℕ}
    (hi : p.instructions[pc]? = some i) (ha : i.action = .jumpZero radius)
    (hx : x.isZero = true) (ht : p.jumpTarget radius = target) :
    Advances 1 (p.quiet pc (x :: cells) bytes accepted)
      (p.quiet target (x :: cells) bytes accepted) := by
  refine advances_quiet (.jump target) hi ?_
  simp [ha, quiet, execute, Stack.top, hx, ht]

/-- A quiet machine does not jump on any other cell, and keeps it as well. -/
theorem advances_quiet_stay {x : Cell} {radius : UInt32} (hi : p.instructions[pc]? = some i)
    (ha : i.action = .jumpZero radius) (hx : x.isZero = false) :
    Advances 1 (p.quiet pc (x :: cells) bytes accepted)
      (p.quiet (pc + 1) (x :: cells) bytes accepted) := by
  refine advances_quiet .next hi ?_
  simp [ha, quiet, execute, Stack.top, hx]

end

end Program

/-- A text is interpreted by running what it compiles to. The result is what the sink has accepted
when the machine is given up. -/
theorem interpret?_of_run? {limit : ℕ} {text : String} {bytes : List UInt8} {c : Compilation}
    {r : Report} {l : Machine} (hc : Route.compile ⟨Route.anonymous, text⟩ = .ok c)
    (hrun : (c.program.machine (.ofBytes bytes) {}).run? limit = some (.ok r, l)) :
    interpret? limit text bytes = some (.ok l.close.2.accepted) := by
  simp only [interpret?, hc, Program.run?, hrun, Option.map_some]

end GridWalk
