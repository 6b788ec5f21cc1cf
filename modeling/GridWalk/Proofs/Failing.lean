import GridWalk.Proofs.Iteration
import GridWalk.Proofs.OutputIndependence

/-!
# When a step fails

An action is refused for one of three reasons: the stack has too few cells, an exchange
reaches past the stack, or no character can be read. A refused action leaves the stack and
the output alone, and its cause is the cause of the step, whatever comes of the flush. Only a
step whose action is not refused can fail for the flush. Such a step has done what its
instruction says, so a conditional jump that was taken stays taken.
-/

namespace GridWalk

/-- The number of cells that an action takes from the stack or looks at. An exchange says itself
how deep it reaches. -/
def Action.operands : Action → ℕ
  | .dup | .jumpZero _ | .putChar => 1
  | .sub | .greater => 2
  | .nop | .push _ | .swap _ | .getChar => 0

namespace Stack

/-! ### Operations that cannot be done -/

section
variable {s : Stack} {e : Error}

theorem pop_eq_error_iff : s.pop = .error e ↔ s.size < 1 ∧ e = .underflow := by
  obtain ⟨cells⟩ := s
  cases cells <;> simp [pop, size, eq_comm]

theorem top_eq_error_iff : s.top = .error e ↔ s.size < 1 ∧ e = .underflow := by
  obtain ⟨cells⟩ := s
  cases cells <;> simp [top, size, eq_comm]

theorem dup_eq_error_iff : s.dup = .error e ↔ s.size < 1 ∧ e = .underflow := by
  obtain ⟨cells⟩ := s
  cases cells <;> simp [dup, size, eq_comm]

theorem combine_eq_error_iff {f : Cell → Cell → Cell} :
    s.combine f = .error e ↔ s.size < 2 ∧ e = .underflow := by
  obtain ⟨cells⟩ := s
  rcases cells with _ | ⟨a, _ | ⟨b, rest⟩⟩ <;> simp [combine, size, eq_comm]

/-- An exchange fails at depth zero and at depths beyond the size. -/
theorem swap_eq_error_iff {depth : UInt64} :
    s.swap depth = .error e ↔
      (depth = 0 ∨ s.size < depth.toNat) ∧ e = .outOfRange depth s.size := by
  have hzero : depth = 0 ↔ depth.toNat = 0 := by rw [← UInt64.toNat_inj, UInt64.toNat_zero]
  rw [hzero]
  obtain ⟨cells⟩ := s
  unfold swap
  cases hdepth : depth.toNat with
  | zero => simp [eq_comm]
  | succ k =>
    cases cells with
    | nil => simp [size, eq_comm]
    | cons a rest =>
      simp only [size]
      cases hk : (a :: rest)[k]? with
      | none =>
        have hle : rest.length < k := List.getElem?_eq_none_iff.1 hk
        simp [hle, eq_comm]
      | some b =>
        have hlt : k < rest.length + 1 := (List.getElem?_eq_some_iff.1 hk).1
        simp [Nat.le_of_lt_succ hlt]

end

end Stack

namespace Machine

section
variable {m : Machine} {a : Action} {cause : Cause}

/-! ### Actions that are refused -/

/-- The causes for which a stack operation is refused are those of its error. -/
theorem onStack_eq_error_iff {result : Except Stack.Error Stack} :
    (m.onStack result).1 = .error cause ↔ ∃ e, result = .error e ∧ cause = .stack e := by
  cases result <;> simp [onStack, eq_comm]

/-- An action is refused exactly if the stack has fewer cells than it asks for, if it is an exchange
at depth zero or beyond the stack, or if it reads and the input fails. The cause says which. -/
theorem execute_eq_error_iff :
    (m.execute a).1 = .error cause ↔
      (m.stack.size < a.operands ∧ cause = .stack .underflow) ∨
      (∃ depth, a = .swap depth ∧ (depth = 0 ∨ m.stack.size < depth.toNat) ∧
        cause = .stack (.outOfRange depth m.stack.size)) ∨
      ∃ fault, a = .getChar ∧ m.input.readChar.1 = .error fault ∧ cause = .read fault := by
  cases a with
  | nop => simp [execute, Action.operands]
  | push c => simp [execute, Action.operands]
  | dup => simp [execute, Action.operands, onStack_eq_error_iff, Stack.dup_eq_error_iff]
  | swap depth => simp [execute, Action.operands, onStack_eq_error_iff, Stack.swap_eq_error_iff]
  | sub =>
    simp [execute, Action.operands, onStack_eq_error_iff, Stack.sub, Stack.combine_eq_error_iff]
  | greater =>
    simp [execute, Action.operands, onStack_eq_error_iff, Stack.greater, Stack.combine_eq_error_iff]
  | jumpZero radius =>
    have hrefused : (m.execute (.jumpZero radius)).1 = .error cause ↔
        ∃ e, m.stack.top = .error e ∧ cause = .stack e := by
      unfold execute
      cases m.stack.top with
      | error e => simp [eq_comm]
      | ok c => simp
    simp [hrefused, Action.operands, Stack.top_eq_error_iff]
  | getChar =>
    unfold execute
    rcases m.input.readChar with ⟨fault | c, i⟩ <;> simp [Action.operands, eq_comm]
  | putChar =>
    have hrefused : (m.execute .putChar).1 = .error cause ↔
        ∃ e, m.stack.pop = .error e ∧ cause = .stack e := by
      unfold execute
      cases m.stack.pop with
      | error e => simp [eq_comm]
      | ok popped => simp
    simp [hrefused, Action.operands, Stack.pop_eq_error_iff]

/-- A refused action changes nothing, except that reading moves the input on also where it fails. -/
theorem execute_of_error (h : (m.execute a).1 = .error cause) :
    (m.execute a).2 =
      { m with input := if a = .getChar then m.input.readChar.2 else m.input } := by
  have hstack {result : Except Stack.Error Stack} (h : (m.onStack result).1 = .error cause) :
      (m.onStack result).2 = m := by
    obtain ⟨e, rfl, _⟩ := onStack_eq_error_iff.1 h
    rfl
  cases a with
  | nop => cases h
  | push c => cases h
  | dup => exact hstack h
  | swap depth => exact hstack h
  | sub => exact hstack h
  | greater => exact hstack h
  | jumpZero radius =>
    unfold execute at h ⊢
    cases ht : m.stack.top with
    | error e => rfl
    | ok c => simp [ht] at h
  | getChar =>
    unfold execute at h ⊢
    rcases hr : m.input.readChar with ⟨fault | c, i⟩
    · rfl
    · simp [hr] at h
  | putChar =>
    unfold execute at h ⊢
    cases hp : m.stack.pop with
    | error e => rfl
    | ok popped => simp [hp] at h

end

/-! ### Steps that fail -/

section
variable {m : Machine} {i : Instruction} {f : Failure}

/-- A failure names the counter and the instruction there. Its cause is why the action was refused
or, if the action was not refused, why the flush failed. -/
theorem step_eq_error_iff (hi : m.program.instructions[m.pc]? = some i) :
    m.step.1 = .error f ↔ f.pc = m.pc ∧ f.instruction = i ∧
      ((m.execute i.action).1 = .error f.cause ∨
        ∃ flow fault, (m.execute i.action).1 = .ok flow ∧
          (m.execute i.action).2.output.flush.1 = .error fault ∧ f.cause = .write fault) := by
  obtain ⟨pc, j, cause⟩ := f
  rw [step_of_some hi, perform_fst]
  cases (m.execute i.action).1 with
  | error cause' => simp [verdict, Except.mapError, eq_comm]
  | ok flow =>
    cases (m.execute i.action).2.output.flush.1 with
    | ok u => simp [verdict, Except.mapError]
    | error fault => simp [verdict, Except.mapError, eq_comm]

/-- A failure is that of the instruction at the counter. -/
theorem failure_names_instruction (hf : m.step.1 = .error f) :
    f.pc = m.pc ∧ m.program.instructions[m.pc]? = some f.instruction := by
  cases hi : m.program.instructions[m.pc]? with
  | none =>
    rw [step_of_none hi] at hf
    cases hf
  | some i =>
    obtain ⟨hpc, rfl, _⟩ := (step_eq_error_iff hi).1 hf
    exact ⟨hpc, rfl⟩

/-- A refusal is the failure of the step, whatever comes of the flush. -/
theorem step_eq_error_iff_of_ne_write (hi : m.program.instructions[m.pc]? = some i) {cause : Cause}
    (hc : ∀ fault, cause ≠ .write fault) :
    m.step.1 = .error ⟨m.pc, i, cause⟩ ↔ (m.execute i.action).1 = .error cause := by
  rw [step_eq_error_iff hi]
  constructor
  · rintro ⟨_, _, hrefused | ⟨_, fault, _, _, hwrite⟩⟩
    · exact hrefused
    · exact absurd hwrite (hc fault)
  · intro hrefused
    exact ⟨rfl, rfl, Or.inl hrefused⟩

/-- A failure that is not about writing leaves the stack and the written bytes as they are, and the
input as well unless it is about reading. -/
theorem step_of_refused (hf : m.step.1 = .error f) (hc : ∀ fault, f.cause ≠ .write fault) :
    m.step.2.stack = m.stack ∧ m.step.2.output.written = m.output.written ∧
      ((∀ fault, f.cause ≠ .read fault) → m.step.2.input = m.input) := by
  have hi := (failure_names_instruction hf).2
  obtain ⟨_, _, hrefused | ⟨_, fault, _, _, hwrite⟩⟩ := (step_eq_error_iff hi).1 hf
  · rw [step_of_some hi, stack_perform, output_perform, input_perform, Output.written_flush,
      execute_of_error hrefused]
    refine ⟨rfl, rfl, ?_⟩
    intro hread
    have hne : f.instruction.action ≠ .getChar := by
      intro ha
      rw [ha, execute_eq_error_iff] at hrefused
      obtain ⟨hsize, _⟩ | ⟨_, hswap, _⟩ | ⟨fault, _, _, hcause⟩ := hrefused
      · exact Nat.not_lt_zero _ hsize
      · cases hswap
      · exact hread fault hcause
    exact if_neg hne
  · exact absurd hwrite (hc fault)

end

/-- A step fails for want of cells exactly if the stack has fewer than its action asks for, out of
range exactly if its action is an exchange at depth zero or beyond the stack, and at reading exactly
if its action reads and the input fails. Each of these failures leaves the stack and the written
bytes as they are, and the first two the input as well. The output has no say in them: they are
reported on every other output, also on one whose flush fails. -/
theorem step_refused_exactly (m : Machine) (i : Instruction)
    (hi : m.program.instructions[m.pc]? = some i) :
    (∀ f, m.step.1 = .error f → f.pc = m.pc ∧ f.instruction = i) ∧
    (m.step.1 = .error ⟨m.pc, i, .stack .underflow⟩ ↔ m.stack.size < i.action.operands) ∧
    (∀ depth size, m.step.1 = .error ⟨m.pc, i, .stack (.outOfRange depth size)⟩ ↔
      i.action = .swap depth ∧ (depth = 0 ∨ m.stack.size < depth.toNat) ∧ size = m.stack.size) ∧
    (∀ fault, m.step.1 = .error ⟨m.pc, i, .read fault⟩ ↔
      i.action = .getChar ∧ m.input.readChar.1 = .error fault) ∧
    ∀ f, (∀ fault, f.cause ≠ .write fault) →
      (m.step.1 = .error f → m.step.2.stack = m.stack ∧
        m.step.2.output.written = m.output.written ∧
        ((∀ fault, f.cause ≠ .read fault) → m.step.2.input = m.input)) ∧
      ∀ o, ({ m with output := o } : Machine).step.1 = .error f ↔ m.step.1 = .error f := by
  refine ⟨?_, ?_, ?_, ?_, ?_⟩
  · intro f hf
    obtain ⟨hpc, hinstruction, _⟩ := (step_eq_error_iff hi).1 hf
    exact ⟨hpc, hinstruction⟩
  · rw [step_eq_error_iff_of_ne_write hi (by simp), execute_eq_error_iff]
    simp
  · intro depth size
    rw [step_eq_error_iff_of_ne_write hi (by simp), execute_eq_error_iff]
    simp
  · intro fault
    rw [step_eq_error_iff_of_ne_write hi (by simp), execute_eq_error_iff]
    simp [eq_comm]
  · intro f hc
    refine ⟨fun hf => step_of_refused hf hc, ?_⟩
    intro o
    have hsame : SameControl { m with output := o } m := ⟨rfl, rfl, rfl, rfl, trivial⟩
    exact hsame.step_error_iff hc

/-- A difference and an exchange that lack a cell, and a read that fails, each with a flush that
fails as well: the cause is theirs every time, and the one cell stays. -/
theorem step_refused_exactly_flush :
    let p : Program :=
      ⟨#[.ofVisit ⟨-2, 1⟩ 3, .ofVisit ⟨-1, 3⟩ 2, .ofVisit ⟨1, -4⟩ 9], {}, by decide⟩
    let pipe : Fault := ⟨.brokenPipe, "pipe"⟩
    let fresh := p.machine { coming := [.fault ⟨.other, "read"⟩] }
      { flushes := [some pipe, some pipe, some pipe] }
    let m := { fresh with stack := .ofList [⟨5⟩] }
    (∀ k < 3, (m.after k).output.flush.1 = .error pipe) ∧
    m.step.1 = .error ⟨0, .ofVisit ⟨-2, 1⟩ 3, .stack .underflow⟩ ∧
    (m.after 1).step.1 = .error ⟨1, .ofVisit ⟨-1, 3⟩ 2, .stack (.outOfRange 2 1)⟩ ∧
    (m.after 2).step.1 = .error ⟨2, .ofVisit ⟨1, -4⟩ 9, .read ⟨.other, "read"⟩⟩ ∧
    (m.after 3).stack.toList = [⟨5⟩] ∧ (m.after 3).output.written = [] := by
  intro p pipe fresh m
  obtain ⟨_, hlacks, _, _, _⟩ := step_refused_exactly m (.ofVisit ⟨-2, 1⟩ 3) (by decide)
  obtain ⟨_, _, hrange, _, _⟩ := step_refused_exactly (m.after 1) (.ofVisit ⟨-1, 3⟩ 2) (by decide)
  obtain ⟨_, _, _, hread, hkeeps⟩ :=
    step_refused_exactly (m.after 2) (.ofVisit ⟨1, -4⟩ 9) (by decide)
  have hfails := (hread ⟨.other, "read"⟩).2 ⟨by decide, by decide⟩
  obtain ⟨hstack, hwritten, _⟩ := (hkeeps _ (by simp)).1 hfails
  have hlast : m.after 3 = (m.after 2).step.2 := after_add 2 1 m
  rw [hlast, hstack, hwritten]
  exact ⟨by decide, hlacks.2 (by decide),
    (hrange 2 1).2 ⟨by decide, Or.inr (by decide), by decide⟩, hfails, by decide, by decide⟩

/-! ### Where a failing step leads -/

/-- The next instruction is a conditional jump, and the top of the stack is zero, so that it goes to
this index. -/
def TakesJump (m : Machine) (target : ℕ) : Prop :=
  ∃ i radius c, m.program.instructions[m.pc]? = some i ∧ i.action = .jumpZero radius ∧
    m.stack.top = .ok c ∧ c.isZero = true ∧ m.program.jumpTarget radius = target

theorem takesJump_iff {m : Machine} {i : Instruction} (hi : m.program.instructions[m.pc]? = some i)
    {target : ℕ} : m.TakesJump target ↔ (m.execute i.action).1 = .ok (.jump target) := by
  rw [execute_eq_jump_iff]
  constructor
  · rintro ⟨j, radius, c, hj, ha, htop⟩
    rw [hi] at hj
    cases hj
    exact ⟨radius, c, ha, htop⟩
  · rintro ⟨radius, c, ha, htop⟩
    exact ⟨i, radius, c, hi, ha, htop⟩

/-- A failure names the counter before the step. A step that fails moves the counter on by one,
unless its instruction is a conditional jump that is taken to another place. Then only the flush
has failed, and the counter is where the jump leads. -/
theorem failing_step_pc (m : Machine) (f : Failure) (h : m.step.1 = .error f) :
    f.pc = m.pc ∧
    (m.step.2.pc = m.pc + 1 ↔ ∀ target, m.TakesJump target → target = m.pc + 1) ∧
    ∀ target, m.TakesJump target →
      m.step.2.pc = target ∧ ∃ fault, f.cause = .write fault := by
  obtain ⟨hpc, hi⟩ := failure_names_instruction h
  obtain ⟨_, _, hcause⟩ := (step_eq_error_iff hi).1 h
  have hstep : m.step.2.pc = nextPc m.pc (m.execute f.instruction.action).1 := by
    rw [step_of_some hi, pc_perform]
  simp only [takesJump_iff hi]
  refine ⟨hpc, ?_, ?_⟩
  · rw [hstep]
    rcases (m.execute f.instruction.action).1 with cause | _ | target
    · simp [nextPc]
    · simp [nextPc]
    · simp [nextPc]
  · intro target htarget
    rw [hstep, htarget]
    obtain hrefused | ⟨_, fault, _, _, hwrite⟩ := hcause
    · rw [htarget] at hrefused
      cases hrefused
    · exact ⟨rfl, fault, hwrite⟩

/-- A jump that is taken with a flush that fails: the failure is that of instruction 1, and the
counter is at instruction 3. -/
theorem failing_step_pc_jump :
    let p : Program := ⟨#[.ofVisit ⟨2, 1⟩ 0, .ofVisit ⟨-1, -3⟩ 4, .ofVisit ⟨3, 2⟩ 9,
      .ofVisit ⟨6, 1⟩ 7], {}, by decide⟩
    let pipe : Fault := ⟨.brokenPipe, "pipe"⟩
    let fresh := p.machine {} { flushes := [none, some pipe] }
    let m := fresh.step.2
    (∃ trail, Reaches fresh trail m) ∧ m.pc = 1 ∧ m.isHalted = false ∧
    m.step.1 = .error ⟨1, .ofVisit ⟨-1, -3⟩ 4, .write pipe⟩ ∧ m.TakesJump 3 ∧
    m.step.2.pc = 3 ∧ m.step.2.pc ≠ m.pc + 1 := by
  intro p pipe fresh m
  have hfails : m.step.1 = .error ⟨1, .ofVisit ⟨-1, -3⟩ 4, .write pipe⟩ := by decide +kernel
  have hjump : m.TakesJump 3 :=
    ⟨.ofVisit ⟨-1, -3⟩ 4, 4, ⟨0⟩, by decide, by decide, by decide, by decide, by decide +kernel⟩
  obtain ⟨_, hiff, hleads⟩ := failing_step_pc m _ hfails
  refine ⟨⟨_, Reaches.refl.step⟩, by decide, by decide, hfails, hjump, (hleads 3 hjump).1, ?_⟩
  rw [Ne, hiff]
  intro hnext
  exact absurd (hnext 3 hjump) (by decide)

end Machine

end GridWalk
