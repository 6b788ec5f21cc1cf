import GridWalk.Machine.Run
import Mathlib.Tactic

/-!
# Steps and runs of a machine

A step depends on the instructions, the counter, the stack, the input and the output of
a machine, and on nothing else: machines that agree on these are `Alike` and stay alike.
The configuration and the trace do not matter to it. Machines whose stacks, inputs and outputs
are related in another way stay in `Lockstep` as long as their actions keep them there. A run is
a sequence of steps with traces between them, and `executed` lists the machines whose
instruction it runs.
-/

namespace GridWalk

/-- Jumps are resolved from the instructions alone. -/
theorem Program.jumpTarget_congr {p q : Program} (h : p.instructions = q.instructions)
    (radius : UInt32) : p.jumpTarget radius = q.jumpTarget radius := by
  rw [jumpTarget, jumpTarget, size, size, h]

namespace Machine

/-- Two machines at the same instruction, whose stacks, inputs and outputs are related by `S`, `I`
and `O`. -/
structure Lockstep (S : Stack → Stack → Prop) (I : Input → Input → Prop)
    (O : Output → Output → Prop) (m n : Machine) : Prop where
  /-- They have the same instructions. -/
  instructions : m.program.instructions = n.program.instructions
  /-- They are at the same instruction. -/
  pc : m.pc = n.pc
  /-- Their stacks are related. -/
  stack : S m.stack n.stack
  /-- Their inputs are related. -/
  input : I m.input n.input
  /-- Their outputs are related. -/
  output : O m.output n.output

/-- Two machines agree on all that a step depends on. -/
def Alike : Machine → Machine → Prop := Lockstep Eq Eq Eq

namespace Alike

theorem refl (m : Machine) : Alike m m := ⟨rfl, rfl, rfl, rfl, rfl⟩

theorem symm {m n : Machine} (h : Alike m n) : Alike n m :=
  ⟨h.instructions.symm, h.pc.symm, h.stack.symm, h.input.symm, h.output.symm⟩

theorem trans {m n k : Machine} (h : Alike m n) (h' : Alike n k) : Alike m k :=
  ⟨h.instructions.trans h'.instructions, h.pc.trans h'.pc, h.stack.trans h'.stack,
    h.input.trans h'.input, h.output.trans h'.output⟩

/-- Equal outcomes of a stack operation are taken over alike. -/
theorem onStack {m n : Machine} (h : Alike m n) (result : Except Stack.Error Stack) :
    (m.onStack result).1 = (n.onStack result).1 ∧
      Alike (m.onStack result).2 (n.onStack result).2 := by
  cases result with
  | ok s => exact ⟨rfl, h.instructions, h.pc, rfl, h.input, h.output⟩
  | error e => exact ⟨rfl, h⟩

/-- An action has the same outcome on machines that are alike, and leaves them alike. -/
theorem execute {m n : Machine} (h : Alike m n) (a : Action) :
    (m.execute a).1 = (n.execute a).1 ∧ Alike (m.execute a).2 (n.execute a).2 := by
  cases a with
  | nop => exact ⟨rfl, h⟩
  | push c =>
    have hpush := congrArg (Stack.push · c) h.stack
    exact ⟨rfl, h.instructions, h.pc, hpush, h.input, h.output⟩
  | dup =>
    simp only [Machine.execute, h.stack]
    exact h.onStack _
  | swap depth =>
    simp only [Machine.execute, h.stack]
    exact h.onStack _
  | sub =>
    simp only [Machine.execute, h.stack]
    exact h.onStack _
  | greater =>
    simp only [Machine.execute, h.stack]
    exact h.onStack _
  | jumpZero radius =>
    simp only [Machine.execute, h.stack, Program.jumpTarget_congr h.instructions]
    cases n.stack.top with
    | error e => exact ⟨rfl, h⟩
    | ok c => exact ⟨rfl, h⟩
  | getChar =>
    simp only [Machine.execute, h.input, h.stack]
    rcases n.input.readChar with ⟨_ | c, i⟩
    · exact ⟨rfl, h.instructions, h.pc, rfl, rfl, h.output⟩
    · exact ⟨rfl, h.instructions, h.pc, rfl, rfl, h.output⟩
  | putChar =>
    simp only [Machine.execute, h.stack, h.output]
    rcases n.stack.pop with e | ⟨c, s⟩
    · exact ⟨rfl, h⟩
    · exact ⟨rfl, h.instructions, h.pc, rfl, h.input, rfl⟩

theorem traceStep (m : Machine) (i : Instruction) : Alike (m.traceStep i) m := by
  unfold Machine.traceStep
  split
  · exact ⟨rfl, rfl, rfl, rfl, rfl⟩
  · exact refl m

theorem traceFailure (m : Machine) (f : Failure) : Alike (m.traceFailure f) m := by
  unfold Machine.traceFailure
  split
  · exact ⟨rfl, rfl, rfl, rfl, rfl⟩
  · exact refl m

theorem traceListing (m : Machine) : Alike m.traceListing m := by
  unfold Machine.traceListing
  split
  · exact ⟨rfl, rfl, rfl, rfl, rfl⟩
  · exact refl m

end Alike

/-! ### What stays -/

@[simp] theorem program_traceStep (m : Machine) (i : Instruction) :
    (m.traceStep i).program = m.program := by
  unfold traceStep
  split <;> rfl

@[simp] theorem program_traceFailure (m : Machine) (f : Failure) :
    (m.traceFailure f).program = m.program := by
  unfold traceFailure
  split <;> rfl

@[simp] theorem program_traceListing (m : Machine) : m.traceListing.program = m.program := by
  unfold traceListing
  split <;> rfl

/-- An action changes the stack, the input and the output, and nothing else. -/
theorem execute_eq_with (m : Machine) (a : Action) :
    (m.execute a).2 = { m with
      stack := (m.execute a).2.stack
      input := (m.execute a).2.input
      output := (m.execute a).2.output } := by
  have hstack (result : Except Stack.Error Stack) : (m.onStack result).2 = { m with
      stack := (m.onStack result).2.stack
      input := (m.onStack result).2.input
      output := (m.onStack result).2.output } := by
    cases result <;> rfl
  cases a with
  | nop => rfl
  | push c => rfl
  | dup => exact hstack _
  | swap depth => exact hstack _
  | sub => exact hstack _
  | greater => exact hstack _
  | jumpZero radius =>
    unfold execute
    cases m.stack.top <;> rfl
  | getChar =>
    unfold execute
    rcases m.input.readChar with ⟨_ | c, i⟩ <;> rfl
  | putChar =>
    unfold execute
    rcases m.stack.pop with e | ⟨c, s⟩ <;> rfl

@[simp] theorem program_execute (m : Machine) (a : Action) :
    (m.execute a).2.program = m.program := by
  rw [execute_eq_with]

@[simp] theorem trace_execute (m : Machine) (a : Action) : (m.execute a).2.trace = m.trace := by
  rw [execute_eq_with]

@[simp] theorem program_perform (m : Machine) (i : Instruction) :
    (m.perform i).2.program = m.program := by
  change ((m.traceStep i).execute i.action).2.program = m.program
  rw [program_execute, program_traceStep]

/-! ### What a step does -/

section
variable (m : Machine) (i : Instruction)

/-- Tracing an instruction does not change what it does. -/
theorem execute_traceStep (a : Action) :
    ((m.traceStep i).execute a).1 = (m.execute a).1 ∧
      Alike ((m.traceStep i).execute a).2 (m.execute a).2 :=
  (Alike.traceStep m i).execute a

theorem perform_fst : (m.perform i).1 =
    verdict (m.execute i.action).1 (m.execute i.action).2.output.flush.1 := by
  obtain ⟨he, ha⟩ := m.execute_traceStep i i.action
  rw [← he, ← ha.output]
  rfl

theorem pc_perform : (m.perform i).2.pc = nextPc m.pc (m.execute i.action).1 := by
  rw [← (m.execute_traceStep i i.action).1]
  rfl

theorem stack_perform : (m.perform i).2.stack = (m.execute i.action).2.stack :=
  (m.execute_traceStep i i.action).2.stack

theorem input_perform : (m.perform i).2.input = (m.execute i.action).2.input :=
  (m.execute_traceStep i i.action).2.input

theorem output_perform : (m.perform i).2.output = (m.execute i.action).2.output.flush.2 := by
  rw [← (m.execute_traceStep i i.action).2.output]
  rfl

end

/-- A halted machine has no instruction to run. -/
theorem isHalted_iff {m : Machine} : m.isHalted = true ↔ m.program.instructions[m.pc]? = none := by
  rw [isHalted, decide_eq_true_iff, Program.size, Array.getElem?_eq_none_iff]

/-- A machine that has not halted has an instruction to run. -/
theorem isHalted_eq_false_iff {m : Machine} :
    m.isHalted = false ↔ ∃ i, m.program.instructions[m.pc]? = some i := by
  rw [← Bool.not_eq_true, isHalted_iff, ← Ne, Option.ne_none_iff_exists']

theorem step_of_none {m : Machine} (h : m.program.instructions[m.pc]? = none) :
    m.step = (.ok (), m) := by
  simp only [step, h]

theorem step_of_some {m : Machine} {i : Instruction} (h : m.program.instructions[m.pc]? = some i) :
    m.step = ((m.perform i).1.mapError (⟨m.pc, i, ·⟩), (m.perform i).2) := by
  simp only [step, h]

@[simp] theorem program_step (m : Machine) : m.step.2.program = m.program := by
  cases hi : m.program.instructions[m.pc]? with
  | none => rw [step_of_none hi]
  | some i => rw [step_of_some hi, program_perform]

/-! ### Machines in lockstep -/

section
variable {S : Stack → Stack → Prop} {I : Input → Input → Prop} {O : Output → Output → Prop}
  {m n : Machine}

theorem Lockstep.getElem?_pc (h : Lockstep S I O m n) :
    m.program.instructions[m.pc]? = n.program.instructions[n.pc]? := by
  rw [h.instructions, h.pc]

theorem Lockstep.isHalted_eq (h : Lockstep S I O m n) : m.isHalted = n.isHalted := by
  rw [Bool.eq_iff_iff, isHalted_iff, isHalted_iff, h.getElem?_pc]

/-- Machines stay in lockstep over a step whose action has the same outcome on both and keeps them
in lockstep, where flushes keep outputs related. -/
theorem Lockstep.step_snd (h : Lockstep S I O m n)
    (hflush : ∀ o o', O o o' → O o.flush.2 o'.flush.2)
    (hexecute : ∀ i, n.program.instructions[n.pc]? = some i →
      (m.execute i.action).1 = (n.execute i.action).1 ∧
        Lockstep S I O (m.execute i.action).2 (n.execute i.action).2) :
    Lockstep S I O m.step.2 n.step.2 := by
  cases hi : n.program.instructions[n.pc]? with
  | none =>
    rw [step_of_none hi, step_of_none (h.getElem?_pc.trans hi)]
    exact h
  | some i =>
    obtain ⟨hexecuted, hnext⟩ := hexecute i hi
    rw [step_of_some hi, step_of_some (h.getElem?_pc.trans hi)]
    refine ⟨?_, ?_, ?_, ?_, ?_⟩
    · rw [program_perform, program_perform, h.instructions]
    · rw [pc_perform, pc_perform, hexecuted, h.pc]
    · rw [stack_perform, stack_perform]
      exact hnext.stack
    · rw [input_perform, input_perform]
      exact hnext.input
    · rw [output_perform, output_perform]
      exact hflush _ _ hnext.output

/-- With the same output, the step has the same outcome as well. -/
theorem Lockstep.step (h : Lockstep S I Eq m n)
    (hexecute : ∀ i, n.program.instructions[n.pc]? = some i →
      (m.execute i.action).1 = (n.execute i.action).1 ∧
        Lockstep S I Eq (m.execute i.action).2 (n.execute i.action).2) :
    m.step.1 = n.step.1 ∧ Lockstep S I Eq m.step.2 n.step.2 := by
  refine ⟨?_, h.step_snd (fun _ _ => congrArg fun o : Output => o.flush.2) hexecute⟩
  cases hi : n.program.instructions[n.pc]? with
  | none => rw [step_of_none hi, step_of_none (h.getElem?_pc.trans hi)]
  | some i =>
    obtain ⟨hexecuted, hnext⟩ := hexecute i hi
    rw [step_of_some hi, step_of_some (h.getElem?_pc.trans hi), perform_fst, perform_fst, hexecuted,
      hnext.output, h.pc]

/-- Machines that are alike take the same step. -/
theorem Alike.step (h : Alike m n) : m.step.1 = n.step.1 ∧ Alike m.step.2 n.step.2 :=
  Lockstep.step h fun i _ => h.execute i.action

end

/-! ### Runs, one step at a time -/

section
variable {m : Machine} {r : Report} {limit : ℕ} {f : Failure}

/-- A run of a halted machine is over. -/
theorem runFrom?_of_halted (h : m.isHalted = true) : runFrom? limit r m = some (.ok r, m) := by
  cases limit <;> simp only [runFrom?, h, ite_true]

theorem runFrom?_zero_of_running (h : m.isHalted = false) : runFrom? 0 r m = none := by
  simp only [runFrom?, h, Bool.false_eq_true, ite_false]

/-- A step that succeeds is counted. -/
theorem runFrom?_succ_of_ok (h : m.isHalted = false) (hs : m.step.1 = .ok ()) :
    runFrom? (limit + 1) r m = runFrom? limit { r with steps := r.steps + 1 } m.step.2 := by
  have he : m.step = (.ok (), m.step.2) := Prod.ext hs rfl
  rw [runFrom?, h, he]
  rfl

/-- A step that fails ends the run of a strict program. -/
theorem runFrom?_succ_of_strict (h : m.isHalted = false) (hs : m.step.1 = .error f)
    (hc : m.program.config.strict = true) :
    runFrom? (limit + 1) r m = some (.error f, m.step.2) := by
  have he : m.step = (.error f, m.step.2) := Prod.ext hs rfl
  have hc' : m.step.2.program.config.strict = true := by rwa [program_step]
  rw [runFrom?, h, he]
  simp only [Bool.false_eq_true, ite_false, hc', ite_true]

/-- A lenient program counts a failure and goes on. -/
theorem runFrom?_succ_of_lenient (h : m.isHalted = false) (hs : m.step.1 = .error f)
    (hc : m.program.config.strict = false) :
    runFrom? (limit + 1) r m =
      runFrom? limit ⟨r.steps + 1, r.recovered + 1⟩ (m.step.2.traceFailure f) := by
  have he : m.step = (.error f, m.step.2) := Prod.ext hs rfl
  have hc' : m.step.2.program.config.strict = false := by rwa [program_step]
  rw [runFrom?, h, he]
  simp only [Bool.false_eq_true, ite_false, hc']

end

/-- The machines whose instruction a run of at most `limit` steps executes, in order. -/
def executed : ℕ → Machine → List Machine
  | 0, _ => []
  | limit + 1, m =>
    if m.isHalted then
      []
    else
      m :: match m.step with
        | (.ok (), m) => executed limit m
        | (.error f, m) => if m.program.config.strict then [] else executed limit (m.traceFailure f)

section
variable {m : Machine} {limit : ℕ} {f : Failure}

theorem executed_of_halted (h : m.isHalted = true) : executed limit m = [] := by
  cases limit <;> simp only [executed, h, ite_true]

theorem executed_succ_of_ok (h : m.isHalted = false) (hs : m.step.1 = .ok ()) :
    executed (limit + 1) m = m :: executed limit m.step.2 := by
  have he : m.step = (.ok (), m.step.2) := Prod.ext hs rfl
  rw [executed, h, he]
  rfl

theorem executed_succ_of_strict (h : m.isHalted = false) (hs : m.step.1 = .error f)
    (hc : m.program.config.strict = true) : executed (limit + 1) m = [m] := by
  have he : m.step = (.error f, m.step.2) := Prod.ext hs rfl
  have hc' : m.step.2.program.config.strict = true := by rwa [program_step]
  rw [executed, h, he]
  simp only [Bool.false_eq_true, ite_false, hc', ite_true]

theorem executed_succ_of_lenient (h : m.isHalted = false) (hs : m.step.1 = .error f)
    (hc : m.program.config.strict = false) :
    executed (limit + 1) m = m :: executed limit (m.step.2.traceFailure f) := by
  have he : m.step = (.error f, m.step.2) := Prod.ext hs rfl
  have hc' : m.step.2.program.config.strict = false := by rwa [program_step]
  rw [executed, h, he]
  simp only [Bool.false_eq_true, ite_false, hc']

end

/-- A run that comes to an end, without a bound on its steps: it goes on from a report and a
machine, executes the instructions of some machines in turn, and ends with a result and a
machine. -/
inductive Runs : Report → Machine → List Machine → Except Failure Report → Machine → Prop
  | halted {r m} : m.isHalted = true → Runs r m [] (.ok r) m
  | ok {r m trail result l} : m.isHalted = false → m.step.1 = .ok () →
      Runs { r with steps := r.steps + 1 } m.step.2 trail result l → Runs r m (m :: trail) result l
  | strict {r m f} : m.isHalted = false → m.step.1 = .error f → m.program.config.strict = true →
      Runs r m [m] (.error f) m.step.2
  | lenient {r m f trail result l} : m.isHalted = false → m.step.1 = .error f →
      m.program.config.strict = false →
      Runs ⟨r.steps + 1, r.recovered + 1⟩ (m.step.2.traceFailure f) trail result l →
      Runs r m (m :: trail) result l

/-- Every run that ends within its limit is one of these. -/
theorem runs_of_runFrom? {limit : ℕ} {r : Report} {m l : Machine}
    {result : Except Failure Report} (h : runFrom? limit r m = some (result, l)) :
    Runs r m (executed limit m) result l := by
  induction limit generalizing r m with
  | zero =>
    cases hh : m.isHalted with
    | true =>
      rw [runFrom?_of_halted hh] at h
      cases h
      exact .halted hh
    | false => simp [runFrom?_zero_of_running hh] at h
  | succ limit ih =>
    cases hh : m.isHalted with
    | true =>
      rw [runFrom?_of_halted hh] at h
      cases h
      rw [executed_of_halted hh]
      exact .halted hh
    | false =>
      cases hs : m.step.1 with
      | ok u =>
        rw [runFrom?_succ_of_ok hh hs] at h
        rw [executed_succ_of_ok hh hs]
        exact .ok hh hs (ih h)
      | error f =>
        cases hc : m.program.config.strict with
        | true =>
          rw [runFrom?_succ_of_strict hh hs hc] at h
          cases h
          rw [executed_succ_of_strict hh hs hc]
          exact .strict hh hs hc
        | false =>
          rw [runFrom?_succ_of_lenient hh hs hc] at h
          rw [executed_succ_of_lenient hh hs hc]
          exact .lenient hh hs hc (ih h)

/-- Such a run ends within any limit that leaves room for its steps. -/
theorem Runs.runFrom?_eq {r : Report} {m l : Machine} {trail : List Machine}
    {result : Except Failure Report} (h : Runs r m trail result l) {limit : ℕ}
    (hl : trail.length ≤ limit) : runFrom? limit r m = some (result, l) := by
  induction h generalizing limit with
  | halted hh => exact runFrom?_of_halted hh
  | ok hh hs _ ih =>
    obtain ⟨limit, rfl⟩ := Nat.exists_eq_add_one_of_ne_zero (Nat.ne_zero_of_lt hl)
    rw [runFrom?_succ_of_ok hh hs]
    exact ih (Nat.le_of_succ_le_succ hl)
  | strict hh hs hc =>
    obtain ⟨limit, rfl⟩ := Nat.exists_eq_add_one_of_ne_zero (Nat.ne_zero_of_lt hl)
    exact runFrom?_succ_of_strict hh hs hc
  | lenient hh hs hc _ ih =>
    obtain ⟨limit, rfl⟩ := Nat.exists_eq_add_one_of_ne_zero (Nat.ne_zero_of_lt hl)
    rw [runFrom?_succ_of_lenient hh hs hc]
    exact ih (Nat.le_of_succ_le_succ hl)

/-- Within such a limit, the machines whose instruction it executes are those of its trail. -/
theorem Runs.executed_eq {r : Report} {m l : Machine} {trail : List Machine}
    {result : Except Failure Report} (h : Runs r m trail result l) {limit : ℕ}
    (hl : trail.length ≤ limit) : executed limit m = trail := by
  induction h generalizing limit with
  | halted hh => exact executed_of_halted hh
  | ok hh hs _ ih =>
    obtain ⟨limit, rfl⟩ := Nat.exists_eq_add_one_of_ne_zero (Nat.ne_zero_of_lt hl)
    rw [executed_succ_of_ok hh hs, ih (Nat.le_of_succ_le_succ hl)]
  | strict hh hs hc =>
    obtain ⟨limit, rfl⟩ := Nat.exists_eq_add_one_of_ne_zero (Nat.ne_zero_of_lt hl)
    exact executed_succ_of_strict hh hs hc
  | lenient hh hs hc _ ih =>
    obtain ⟨limit, rfl⟩ := Nat.exists_eq_add_one_of_ne_zero (Nat.ne_zero_of_lt hl)
    rw [executed_succ_of_lenient hh hs hc, ih (Nat.le_of_succ_le_succ hl)]

/-! ### How many steps a run makes -/

/-- A run makes no more steps than it may. -/
theorem length_executed_le (limit : ℕ) (m : Machine) : (executed limit m).length ≤ limit := by
  induction limit generalizing m with
  | zero => exact Nat.le_refl 0
  | succ limit ih =>
    rw [executed]
    split_ifs with hh
    · exact Nat.zero_le _
    · rw [List.length_cons]
      refine Nat.succ_le_succ ?_
      rcases m.step with ⟨_ | f, k⟩ <;> dsimp only
      · split_ifs
        · exact Nat.zero_le _
        · exact ih _
      · exact ih _

/-- A run that ends well reports as many steps as it makes. -/
theorem Runs.steps_eq {r report : Report} {m l : Machine} {trail : List Machine}
    {result : Except Failure Report} (h : Runs r m trail result l) (hr : result = .ok report) :
    report.steps = r.steps + trail.length := by
  induction h with
  | halted =>
    cases hr
    rfl
  | ok _ _ _ ih => rw [ih hr, List.length_cons, Nat.add_right_comm, Nat.add_assoc]
  | strict => cases hr
  | lenient _ _ _ _ ih => rw [ih hr, List.length_cons, Nat.add_right_comm, Nat.add_assoc]

/-! ### The machines that calls lead to -/

/-- The machines that calls of `step` and `run?` lead to from `m`, each with the list of all
machines whose instruction was executed on the way. -/
inductive Reaches (m : Machine) : List Machine → Machine → Prop
  /-- No call. -/
  | refl : Reaches m [] m
  /-- One more step, which executes nothing when the machine has halted. -/
  | step {trail k} : Reaches m trail k →
      Reaches m (trail ++ if k.isHalted then [] else [k]) k.step.2
  /-- One more run, which came to an end. -/
  | run {trail k limit result l} : Reaches m trail k → k.run? limit = some (result, l) →
      Reaches m (trail ++ k.traceListing.executed limit) l

end Machine

end GridWalk
