import GridWalk.Proofs.Halting

/-!
# What the output cannot change

Where a machine goes next, its stack and its input do not depend on its output. Two machines
that agree on these keep agreeing, however differently their sinks behave. A step of theirs
has the same outcome, unless its instruction succeeds: then each of the two may still fail
at its flush.
-/

namespace GridWalk.Machine

/-- Two machines agree on all but their output, their configuration and their trace. -/
def SameControl : Machine → Machine → Prop := Lockstep Eq Eq fun _ _ => True

/-- An action on another output does the same, but for the output. -/
theorem execute_with_output (m : Machine) (o : Output) (a : Action) :
    ∃ o', ({ m with output := o } : Machine).execute a =
      ((m.execute a).1, { (m.execute a).2 with output := o' }) := by
  have hstack (result : Except Stack.Error Stack) :
      ({ m with output := o } : Machine).onStack result =
        ((m.onStack result).1, { (m.onStack result).2 with output := o }) := by
    cases result <;> rfl
  cases a with
  | nop => exact ⟨o, rfl⟩
  | push c => exact ⟨o, rfl⟩
  | dup => exact ⟨o, hstack _⟩
  | swap depth => exact ⟨o, hstack _⟩
  | sub => exact ⟨o, hstack _⟩
  | greater => exact ⟨o, hstack _⟩
  | jumpZero radius =>
    refine ⟨o, ?_⟩
    simp only [execute]
    cases m.stack.top <;> rfl
  | getChar =>
    refine ⟨o, ?_⟩
    simp only [execute]
    rcases m.input.readChar with ⟨_ | c, i⟩ <;> rfl
  | putChar =>
    simp only [execute]
    rcases m.stack.pop with e | ⟨c, s⟩
    · exact ⟨o, rfl⟩
    · exact ⟨o.put c.toChar, rfl⟩

/-- The outcome of a step whose instruction succeeds: nothing failed, or only the flush. -/
def FlushOutcome (pc : ℕ) (i : Instruction) (outcome : Except Failure Unit) : Prop :=
  outcome = .ok () ∨ ∃ fault, outcome = .error ⟨pc, i, .write fault⟩

/-- A step whose instruction succeeds can only fail at its flush. -/
theorem flushOutcome_verdict (pc : ℕ) (i : Instruction) (flow : Flow)
    (flushed : Except Fault Unit) :
    FlushOutcome pc i ((verdict (.ok flow) flushed).mapError (⟨pc, i, ·⟩)) := by
  cases flushed with
  | ok u => exact Or.inl rfl
  | error fault => exact Or.inr ⟨fault, rfl⟩

namespace SameControl

variable {m n : Machine}

/-- An action has the same outcome and leaves control the same: with the output of `n`, the machine
`m` is like `n`, and the output does not matter to the action. -/
theorem execute (h : SameControl m n) (a : Action) :
    (m.execute a).1 = (n.execute a).1 ∧ SameControl (m.execute a).2 (n.execute a).2 := by
  have halike : Alike { m with output := n.output } n :=
    ⟨h.instructions, h.pc, h.stack, h.input, rfl⟩
  obtain ⟨o, ho⟩ := execute_with_output m n.output a
  obtain ⟨houtcome, hnext⟩ := halike.execute a
  rw [ho] at houtcome hnext
  exact ⟨houtcome, hnext.instructions, hnext.pc, hnext.stack, hnext.input, trivial⟩

/-- A step leaves control the same. -/
theorem step (h : SameControl m n) : SameControl m.step.2 n.step.2 :=
  Lockstep.step_snd h (fun _ _ _ => trivial) fun i _ => h.execute i.action

/-- The next steps have the same outcome, or their instruction succeeds in both. -/
theorem step_outcome (h : SameControl m n) :
    m.step.1 = n.step.1 ∨
      ∃ i, FlushOutcome m.pc i m.step.1 ∧ FlushOutcome m.pc i n.step.1 := by
  cases hi : n.program.instructions[n.pc]? with
  | none =>
    rw [step_of_none hi, step_of_none (h.getElem?_pc.trans hi)]
    exact Or.inl rfl
  | some i =>
    have hexecuted := (h.execute i.action).1
    rw [step_of_some hi, step_of_some (h.getElem?_pc.trans hi), perform_fst, perform_fst,
      hexecuted, h.pc]
    cases (n.execute i.action).1 with
    | error cause => exact Or.inl rfl
    | ok flow =>
      exact Or.inr ⟨i, flushOutcome_verdict n.pc i flow _, flushOutcome_verdict n.pc i flow _⟩

/-- A failure that is not about writing happens in both or in none. -/
theorem step_error_iff (h : SameControl m n) {f : Failure} (hf : ∀ fault, f.cause ≠ .write fault) :
    m.step.1 = .error f ↔ n.step.1 = .error f := by
  have hnot {pc : ℕ} {i : Instruction} {outcome : Except Failure Unit}
      (ho : FlushOutcome pc i outcome) : outcome ≠ .error f := by
    rintro rfl
    obtain ho | ⟨fault, ho⟩ := ho
    · cases ho
    · cases ho
      exact hf fault rfl
  obtain he | ⟨i, hm, hn⟩ := h.step_outcome
  · rw [he]
  · exact ⟨fun he => absurd he (hnot hm), fun he => absurd he (hnot hn)⟩

/-- Where one fails to write, the other succeeds or fails to write as well. -/
theorem step_of_write (h : SameControl m n) {f : Failure} {fault : Fault}
    (he : m.step.1 = .error f) (hf : f.cause = .write fault) :
    n.step.1 = .ok () ∨ ∃ fault', n.step.1 = .error { f with cause := .write fault' } := by
  obtain heq | ⟨i, hm, hn⟩ := h.step_outcome
  · right
    refine ⟨fault, ?_⟩
    rw [← heq, he, ← hf]
  · obtain hok | ⟨fault', hwrite⟩ := hm
    · rw [hok] at he
      cases he
    · rw [hwrite] at he
      cases he
      exact hn

theorem after (h : SameControl m n) (k : ℕ) : SameControl (m.after k) (n.after k) :=
  Lockstep.after (fun _ _ h => step h) h k

end SameControl

/-- A program on one input goes the same way whatever its sink does. After every number of steps
the counter, the stack and the input left are the same. A lenient run therefore ends on one sink
if and only if it ends on the other, after the same number of steps. Failures of the stack and of
the input happen at the same steps, and a step that fails to write on one sink succeeds or fails
to write on the other. -/
theorem control_independent_of_sink (p : Program) (input : Input) (sink sink' : Sink) :
    let m := p.machine input sink
    let m' := p.machine input sink'
    (∀ n, (m.after n).pc = (m'.after n).pc ∧ (m.after n).stack = (m'.after n).stack ∧
      (m.after n).input = (m'.after n).input) ∧
    (p.config.strict = false → ∀ limit steps,
      (∃ report l, m.run? limit = some (.ok report, l) ∧ report.steps = steps) ↔
      ∃ report l, m'.run? limit = some (.ok report, l) ∧ report.steps = steps) ∧
    (∀ n f, (∀ fault, f.cause ≠ .write fault) →
      ((m.after n).step.1 = .error f ↔ (m'.after n).step.1 = .error f)) ∧
    ∀ n f fault, (m.after n).step.1 = .error f → f.cause = .write fault →
      (m'.after n).step.1 = .ok () ∨
        ∃ fault', (m'.after n).step.1 = .error { f with cause := .write fault' } := by
  intro m m'
  have hsame : SameControl m m' := ⟨rfl, rfl, rfl, rfl, trivial⟩
  refine ⟨?_, ?_, ?_, ?_⟩
  · intro n
    have hn := hsame.after n
    exact ⟨hn.pc, hn.stack, hn.input⟩
  · intro hc limit steps
    have hhalts : HaltsAfter steps m ↔ HaltsAfter steps m' :=
      haltsAfter_congr fun k => (hsame.after k).isHalted_eq
    rw [exists_run?_iff_haltsAfter hc, exists_run?_iff_haltsAfter hc, hhalts]
  · intro n f hf
    exact (hsame.after n).step_error_iff hf
  · intro n f fault he hf
    exact (hsame.after n).step_of_write he hf

/-- A program that writes a character and then copies a cell that is not there, on a sink that
accepts everything and on one that is broken: the second fails once more and ends as well. -/
theorem control_independent_of_sink_broken :
    let p : Program := ⟨#[.ofVisit ⟨2, 1⟩ 65, .ofVisit ⟨3, -1⟩ 7, .ofVisit ⟨1, 4⟩ 8], {}, by decide⟩
    let pipe : Fault := ⟨.brokenPipe, "pipe"⟩
    let m := p.machine {} {}
    let m' := p.machine {} { replies := [.fault pipe, .fault pipe] }
    (∃ l, m.run? 3 = some (.ok ⟨3, 1⟩, l)) ∧
    (∃ report l, m'.run? 3 = some (.ok report, l) ∧ report.steps = 3) ∧
    (m'.after 1).step.1 = .error ⟨1, .ofVisit ⟨3, -1⟩ 7, .write pipe⟩ ∧
    ((m.after 1).step.1 = .ok () ∨ ∃ fault', (m.after 1).step.1 =
      .error ⟨1, .ofVisit ⟨3, -1⟩ 7, .write fault'⟩) ∧
    (m.after 2).step.1 = .error ⟨2, .ofVisit ⟨1, 4⟩ 8, .stack .underflow⟩ ∧
    (m'.after 2).step.1 = .error ⟨2, .ofVisit ⟨1, 4⟩ 8, .stack .underflow⟩ := by
  intro p pipe m m'
  have hresult : (m.run? 3).map Prod.fst = some (.ok ⟨3, 1⟩) := by decide
  obtain ⟨⟨_, l⟩, hrun, rfl⟩ := Option.map_eq_some_iff.1 hresult
  have hwrite : (m'.after 1).step.1 = .error ⟨1, .ofVisit ⟨3, -1⟩ 7, .write pipe⟩ := by decide
  have hstack : (m.after 2).step.1 = .error ⟨2, .ofVisit ⟨1, 4⟩ 8, .stack .underflow⟩ := by decide
  obtain ⟨_, hends, hfails, _⟩ :=
    control_independent_of_sink p {} {} { replies := [.fault pipe, .fault pipe] }
  obtain ⟨_, _, _, hwrites⟩ :=
    control_independent_of_sink p {} { replies := [.fault pipe, .fault pipe] } {}
  refine ⟨⟨l, hrun⟩, (hends rfl 3 3).1 ⟨_, l, hrun, rfl⟩, hwrite, hwrites 1 _ pipe hwrite rfl,
    hstack, (hfails 2 _ ?_).1 hstack⟩
  intro fault hcause
  cases hcause

end GridWalk.Machine
