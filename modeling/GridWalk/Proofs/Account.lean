import GridWalk.Proofs.Failing

/-!
# The trace as an account of a run

A machine in debug mode writes about itself at three places: at the start of a run, before
each step, and after each failure that it skips. The lines that a run writes are therefore the
listing of the program and then, step by step, the `account` of the machine before the step.
An account can be drawn up without running the machine in debug mode: it depends on the stack,
the counter, the instruction there and the outcome of the step.
-/

namespace GridWalk

/-- A text set to the right in a column of so many characters. -/
def rightAligned (width : ℕ) (text : String) : String :=
  String.ofList (text.toList.leftpad width ' ')

/-- The lines that list a program: a header, the instructions in order and a footer. -/
def Program.listed (p : Program) : List String :=
  "[DEBUG] --- Instructions ---" :: p.instructions.toList.map (fun i => s!"[DEBUG] {i}") ++
    ["[DEBUG] --------------------"]

theorem Program.length_listed (p : Program) : p.listed.length = p.size + 2 := by
  simp [listed, size]

namespace Trace

/-- The lines about a step: the stack before it, and the counter in four columns with the
instruction there. -/
def stepReport (pc : ℕ) (i : Instruction) (s : Stack) : List String :=
  [s!"[DEBUG] Stack: {s}", s!"[DEBUG] PC: {rightAligned 4 (toString pc)}, {i}"]

/-- The line about a failure that was skipped. -/
def failureReport (pc : ℕ) (i : Instruction) (cause : Cause) : String :=
  s!"[DEBUG] Error: instruction {pc} ({i}) failed: {cause.message}"

/-- A line that reports an error. -/
def IsError (line : String) : Prop := "[DEBUG] Error: ".toList <+: line.toList

/-! ### What is written to a working trace -/

theorem column_eq (n : ℕ) : column n = rightAligned 4 (toString n) := by
  have hpad (k : ℕ) : "".pushn ' ' k = String.ofList (List.replicate k ' ') := by
    induction k with
    | zero => rfl
    | succ k ih =>
      change ("".pushn ' ' k).push ' ' = _
      rw [ih, List.replicate_succ', String.ofList_append]
      rfl
  rw [column, rightAligned, List.leftpad, String.ofList_append, String.ofList_toList,
    String.length_toList, hpad]

@[simp] theorem broken_line (t : Trace) (text : String) : (t.line text).broken = t.broken := by
  unfold line
  split <;> rfl

@[simp] theorem broken_writeLines (t : Trace) (texts : List String) :
    (t.writeLines texts).broken = t.broken := by
  induction texts generalizing t with
  | nil => rfl
  | cons text rest ih => exact (ih (t.line text)).trans (broken_line t text)

section
variable {t : Trace} (h : t.broken = false)
include h

theorem lines_listing (p : Program) :
    (t.listing p.instructions.toList).lines.toList = t.lines.toList ++ p.listed := by
  rw [listing, lines_writeLines h, listingLines, Program.listed, List.map_append, List.map_cons,
    List.map_map]
  rfl

theorem lines_step (pc : ℕ) (i : Instruction) (s : Stack) :
    (t.step pc i s).lines.toList = t.lines.toList ++ stepReport pc i s := by
  rw [step, lines_writeLines h, stepLines, column_eq]
  rfl

theorem lines_error (f : Failure) :
    (t.error f.message f.cause.message).lines.toList =
      t.lines.toList ++ [failureReport f.pc f.instruction f.cause] := by
  have hline := lines_writeLines h [s!"Error: {f.message}: {f.cause.message}"]
  refine hline.trans (congrArg (t.lines.toList ++ [·]) ?_)
  change "[DEBUG] " ++ ("Error: " ++ ("instruction " ++ toString f.pc ++ " (" ++
    toString f.instruction ++ ") failed") ++ ": " ++ f.cause.message) =
      "[DEBUG] Error: instruction " ++ toString f.pc ++ " (" ++ toString f.instruction ++
        ") failed: " ++ f.cause.message
  simp only [String.append_assoc]
  rfl

end

/-! ### Lines that report no error -/

/-- A line reports no error if its start differs from the start of a line that does. -/
theorem not_isError (start rest : String)
    (h : ¬ ("[DEBUG] Error: ".toList <+: start.toList ∨
      start.toList <+: "[DEBUG] Error: ".toList)) :
    ¬ IsError (start ++ rest) := by
  intro herror
  rw [IsError, String.toList_append] at herror
  exact h (List.prefix_or_prefix_of_prefix herror (List.prefix_append _ _))

end Trace

namespace Instruction

/-- The text of an instruction starts with the name of its action. -/
theorem exists_toString_eq (i : Instruction) : ∃ rest, toString i = i.action.name ++ rest := by
  cases ho : i.action.operand with
  | none =>
    refine ⟨" " ++ toString i.point, ?_⟩
    simp only [toString, ho, String.append_assoc]
  | some n =>
    refine ⟨" " ++ toString n ++ " " ++ toString i.point, ?_⟩
    simp only [toString, ho, String.append_assoc]

/-- The line of an instruction in a listing reports no error, since no action is called one. -/
theorem not_isError_toString (i : Instruction) : ¬ Trace.IsError s!"[DEBUG] {i}" := by
  obtain ⟨rest, hrest⟩ := i.exists_toString_eq
  rw [hrest]
  change ¬ Trace.IsError ("[DEBUG] " ++ (i.action.name ++ rest))
  rw [← String.append_assoc]
  apply Trace.not_isError
  cases i.action <;> simp only [Action.name] <;> decide

end Instruction

/-- A listing reports no error. -/
theorem Program.not_isError_of_mem_listed {p : Program} {line : String} (h : line ∈ p.listed) :
    ¬ Trace.IsError line := by
  simp only [listed, List.cons_append, List.mem_cons, List.mem_append, List.mem_map,
    List.not_mem_nil, or_false] at h
  unfold Trace.IsError
  obtain rfl | ⟨i, _, rfl⟩ | rfl := h
  · decide
  · exact i.not_isError_toString
  · decide

namespace Machine

/-! ### What a step is to be reported by -/

/-- The cause of the failure of the next step, if it fails and the program goes on. -/
def skipped? (m : Machine) : Option Cause :=
  match m.step.1 with
  | .ok () => none
  | .error f => if m.program.config.strict then none else some f.cause

/-- The lines about the next step, with one more for its failure if there is one to skip. -/
def account (m : Machine) : List String :=
  (m.program.instructions[m.pc]?).elim [] fun i =>
    Trace.stepReport m.pc i m.stack ++ m.skipped?.toList.map (Trace.failureReport m.pc i)

/-- The lines about the next `n` steps. -/
def accounts (n : ℕ) (m : Machine) : List String :=
  (List.range n).flatMap fun k => (m.after k).account

theorem accounts_succ (n : ℕ) (m : Machine) :
    accounts (n + 1) m = m.account ++ accounts n m.step.2 := by
  rw [accounts, List.range_succ_eq_map, List.flatMap_cons, List.flatMap_map]
  rfl

/-- An account does not depend on the trace. -/
theorem Alike.account_eq {m n : Machine} (h : Alike m n) (hp : m.program = n.program) :
    m.account = n.account := by
  unfold account skipped?
  rw [hp, h.pc, h.stack, h.step.1]

theorem Alike.accounts_eq {m n : Machine} (h : Alike m n) (hp : m.program = n.program) (k : ℕ) :
    accounts k m = accounts k n := by
  unfold accounts
  congr 1
  funext j
  exact (h.after j).account_eq (by rw [program_after, program_after, hp])

section
variable {m : Machine}

theorem skipped?_of_ok (hs : m.step.1 = .ok ()) : m.skipped? = none := by
  rw [skipped?, hs]

theorem skipped?_of_strict (hc : m.program.config.strict = true) : m.skipped? = none := by
  unfold skipped?
  rw [hc]
  cases m.step.1 <;> rfl

theorem skipped?_of_error (hc : m.program.config.strict = false) {f : Failure}
    (hs : m.step.1 = .error f) : m.skipped? = some f.cause := by
  rw [skipped?, hs, hc]
  rfl

theorem account_of_none (hi : m.program.instructions[m.pc]? = none) : m.account = [] := by
  rw [account, hi]
  rfl

theorem account_eq {i : Instruction} (hi : m.program.instructions[m.pc]? = some i) :
    m.account =
      Trace.stepReport m.pc i m.stack ++ m.skipped?.toList.map (Trace.failureReport m.pc i) := by
  rw [account, hi]
  rfl

/-- The account of a step has two lines, and a third if there is a failure to skip. -/
theorem length_account (h : m.isHalted = false) :
    m.account.length = 2 + m.skipped?.toList.length := by
  obtain ⟨i, hi⟩ := isHalted_eq_false_iff.1 h
  rw [account_eq hi, List.length_append, List.length_map]
  rfl

/-- Where there is no failure to skip, the account reports no error. -/
theorem not_isError_of_mem_account (hs : m.skipped? = none) {line : String} (h : line ∈ m.account) :
    ¬ Trace.IsError line := by
  cases hi : m.program.instructions[m.pc]? with
  | none =>
    rw [account_of_none hi] at h
    cases h
  | some i =>
    rw [account_eq hi, hs, Option.toList_none, List.map_nil, List.append_nil, Trace.stepReport,
      List.mem_pair] at h
    obtain rfl | rfl := h
    · exact Trace.not_isError "[DEBUG] Stack: " _ (by decide)
    · change ¬ Trace.IsError
        ("[DEBUG] PC: " ++ rightAligned 4 (toString m.pc) ++ ", " ++ toString i)
      rw [String.append_assoc, String.append_assoc]
      exact Trace.not_isError "[DEBUG] PC: " _ (by decide)

end

/-! ### What is traced -/

/-- The machine debugs, to a trace that works. -/
structure Debugs (m : Machine) : Prop where
  /-- The program is to write about itself. -/
  debug : m.program.config.debug = true
  /-- What it writes is kept. -/
  working : m.trace.broken = false

namespace Debugs

variable {m : Machine} (h : Debugs m)
include h

theorem trace_step {i : Instruction} (hi : m.program.instructions[m.pc]? = some i) :
    m.step.2.trace = m.trace.step m.pc i m.stack := by
  rw [step_of_some hi]
  change ((m.traceStep i).execute i.action).2.trace = _
  rw [trace_execute, traceStep, h.debug]
  rfl

theorem trace_traceFailure (f : Failure) :
    (m.traceFailure f).trace = m.trace.error f.message f.cause.message := by
  rw [traceFailure, h.debug]
  rfl

theorem trace_traceListing :
    m.traceListing.trace = m.trace.listing m.program.instructions.toList := by
  rw [traceListing, h.debug]
  rfl

end Debugs

/-- Calls keep a machine debugging. -/
theorem kept_debugs : Kept Debugs where
  step m h := by
    cases hi : m.program.instructions[m.pc]? with
    | none => rwa [step_of_none hi]
    | some i =>
      refine ⟨by rw [program_step, h.debug], ?_⟩
      rw [h.trace_step hi, Trace.step, Trace.broken_writeLines, h.working]
  traceFailure m f h := by
    refine ⟨by rw [program_traceFailure, h.debug], ?_⟩
    rw [h.trace_traceFailure, Trace.error, Trace.broken_line, h.working]
  traceListing m h := by
    refine ⟨by rw [program_traceListing, h.debug], ?_⟩
    rw [h.trace_traceListing, Trace.listing, Trace.broken_writeLines, h.working]

/-- A step that is not followed by a failure to skip writes its account. -/
theorem Debugs.lines_step {m : Machine} (h : Debugs m) (hh : m.isHalted = false)
    (hs : m.skipped? = none) :
    m.step.2.trace.lines.toList = m.trace.lines.toList ++ m.account := by
  obtain ⟨i, hi⟩ := isHalted_eq_false_iff.1 hh
  rw [h.trace_step hi, Trace.lines_step h.working, account_eq hi, hs]
  rfl

/-- A step that fails and the report of the failure write its account. -/
theorem Debugs.lines_traceFailure {m : Machine} (h : Debugs m) {f : Failure}
    (hf : m.step.1 = .error f) (hc : m.program.config.strict = false) :
    (m.step.2.traceFailure f).trace.lines.toList = m.trace.lines.toList ++ m.account := by
  have hstep := kept_debugs.step m h
  obtain ⟨hpc, hi⟩ := failure_names_instruction hf
  rw [hstep.trace_traceFailure, Trace.lines_error hstep.working, h.trace_step hi,
    Trace.lines_step h.working, account_eq hi, skipped?_of_error hc hf, hpc, List.append_assoc]
  rfl

/-- A run writes the accounts of its steps. -/
theorem Runs.lines_eq {r : Report} {m l : Machine} {trail : List Machine}
    {result : Except Failure Report} (h : Runs r m trail result l) (hm : Debugs m) :
    l.trace.lines.toList = m.trace.lines.toList ++ accounts trail.length m := by
  induction h with
  | halted _ => exact (List.append_nil _).symm
  | ok hh hs _ ih =>
    rw [ih (kept_debugs.step _ hm), hm.lines_step hh (skipped?_of_ok hs), List.length_cons,
      accounts_succ, List.append_assoc]
  | strict hh _ hc =>
    rw [hm.lines_step hh (skipped?_of_strict hc), List.length_singleton, accounts_succ]
    exact congrArg _ (List.append_nil _).symm
  | @lenient r m f trail result l hh hs hc _ ih =>
    have hskip := Alike.traceFailure m.step.2 f
    rw [ih (kept_debugs.traceFailure _ f (kept_debugs.step m hm)), hm.lines_traceFailure hs hc,
      hskip.accounts_eq (program_traceFailure _ _), List.length_cons, accounts_succ,
      List.append_assoc]

/-! ### How many lines are traced -/

theorem length_skipped? (m : Machine) :
    m.skipped?.toList.length =
      if m.program.config.strict then 0 else if m.step.1.isOk then 0 else 1 := by
  unfold skipped?
  rcases m.step.1 with f | _
  · cases m.program.config.strict <;> rfl
  · cases m.program.config.strict <;> rfl

/-- Every step accounts for two lines, and in a lenient program every failure for one more. -/
theorem length_accounts {n : ℕ} {m : Machine} (h : ∀ k < n, (m.after k).isHalted = false) :
    (accounts n m).length = 2 * n + if m.program.config.strict then 0 else failed n m := by
  induction n generalizing m with
  | zero =>
    cases m.program.config.strict <;> rfl
  | succ n ih =>
    have hfirst : m.account.length = _ := length_account (h 0 n.succ_pos)
    have hrest : (accounts n m.step.2).length = _ :=
      ih fun k hk => h (k + 1) (Nat.succ_lt_succ hk)
    rw [length_skipped?] at hfirst
    rw [program_step] at hrest
    rw [accounts_succ, List.length_append, hfirst, hrest, failed_succ]
    split_ifs <;> omega

/-- No step of a strict program is reported as an error. -/
theorem not_isError_of_mem_accounts {n : ℕ} {m : Machine} (hc : m.program.config.strict = true)
    {line : String} (h : line ∈ accounts n m) : ¬ Trace.IsError line := by
  obtain ⟨k, _, hk⟩ := List.mem_flatMap.1 h
  exact not_isError_of_mem_account (skipped?_of_strict (by rwa [program_after])) hk

/-- In debug mode, with a trace that works, a run writes the listing of the program and then the
account of each of its steps, in order. Lenient runs write one line for each instruction, two for
the frame of the listing, two for each step and one for each failure that was skipped. Strict runs
write no line for a failure: one that fails at a step has written two lines for this step and for
each of those before it, which all ended well. -/
theorem trace_accounts_for_run (m l : Machine) (hdebug : m.program.config.debug = true)
    (hworking : m.trace.broken = false) (limit : ℕ) (result : Except Failure Report)
    (h : m.run? limit = some (result, l)) :
    ∃ n written, (∀ k < n, (m.after k).isHalted = false) ∧
      written = m.program.listed ++ accounts n m ∧
      l.trace.lines.toList = m.trace.lines.toList ++ written ∧
      (∀ report, result = .ok report → n = report.steps) ∧
      (m.program.config.strict = false → ∃ report, result = .ok report ∧
        written.length = m.program.size + 2 + 2 * report.steps + report.recovered) ∧
      (m.program.config.strict = true →
        written.length = m.program.size + 2 + 2 * n ∧ (∀ line ∈ written, ¬ Trace.IsError line) ∧
        ∀ f, result = .error f → ∃ k, n = k + 1 ∧ (m.after k).step.1 = .error f ∧
          ∀ j < k, (m.after j).step.1 = .ok ()) := by
  have hm : Debugs m := ⟨hdebug, hworking⟩
  have hruns := runs_of_runFrom? h
  have hlist := Alike.traceListing m
  have hrunning : ∀ k < (m.traceListing.executed limit).length, (m.after k).isHalted = false := by
    intro k hk
    rw [← (hlist.after k).isHalted_eq]
    exact hruns.running k hk
  have hlength := length_accounts hrunning
  refine ⟨(m.traceListing.executed limit).length, _, hrunning, rfl, ?_, ?_, ?_, ?_⟩
  · rw [hruns.lines_eq (kept_debugs.traceListing m hm), hm.trace_traceListing,
      Trace.lines_listing hworking, hlist.accounts_eq (program_traceListing m), List.append_assoc]
  · intro report hreport
    rw [hruns.steps_eq hreport, Nat.zero_add]
  · intro hc
    obtain ⟨hresult, _⟩ := hruns.eq_of_lenient (by rwa [program_traceListing])
    refine ⟨_, hresult, ?_⟩
    rw [List.length_append, Program.length_listed, hlength, hc, hlist.failed_eq]
    simp only [Nat.zero_add, Bool.false_eq_true, if_false]
    omega
  · intro hc
    refine ⟨?_, ?_, ?_⟩
    · rw [List.length_append, Program.length_listed, hlength, hc]
      rfl
    · intro line hline
      obtain hline | hline := List.mem_append.1 hline
      · exact Program.not_isError_of_mem_listed hline
      · exact not_isError_of_mem_accounts hc hline
    · intro f hf
      obtain ⟨k, hk, hfails, hbefore⟩ := hruns.first_failure hf
      refine ⟨k, hk, (hlist.after k).step.1.symm.trans hfails, ?_⟩
      intro j hj
      exact (hlist.after j).step.1.symm.trans (hbefore j hj)

/-- A cell is pushed, and a difference lacks a second one. The lenient program reports that it
skips the failure, and the strict one ends without a line about it. -/
theorem trace_accounts_for_run_underflow :
    let instructions : Array Instruction := #[.ofVisit ⟨4, 1⟩ 5, .ofVisit ⟨-5, 1⟩ 0]
    let lenient : Machine := Program.machine ⟨instructions, ⟨false, true⟩, by decide⟩ {} {}
    let strict : Machine := Program.machine ⟨instructions, ⟨true, true⟩, by decide⟩ {} {}
    (∃ l, lenient.run? 2 = some (.ok ⟨2, 1⟩, l) ∧ l.trace.lines.toList =
      ["[DEBUG] --- Instructions ---", "[DEBUG] push 5 (4, 1)", "[DEBUG] sub (-5, 1)",
        "[DEBUG] --------------------", "[DEBUG] Stack: []", "[DEBUG] PC:    0, push 5 (4, 1)",
        "[DEBUG] Stack: [5]", "[DEBUG] PC:    1, sub (-5, 1)",
        "[DEBUG] Error: instruction 1 (sub (-5, 1)) failed: " ++
          "insufficient number of elements in the stack"]) ∧
    ∃ l, strict.run? 2 = some (.error ⟨1, .ofVisit ⟨-5, 1⟩ 0, .stack .underflow⟩, l) ∧
      l.trace.lines.size = 2 + 2 + 2 * 2 ∧ ∀ line ∈ l.trace.lines.toList, ¬ Trace.IsError line := by
  intro instructions lenient strict
  constructor
  · have hresult : (lenient.run? 2).map Prod.fst = some (.ok ⟨2, 1⟩) := by decide +kernel
    obtain ⟨⟨_, l⟩, hrun, rfl⟩ := Option.map_eq_some_iff.1 hresult
    obtain ⟨n, written, _, hwritten, hlines, hsteps, _⟩ :=
      trace_accounts_for_run lenient l rfl rfl 2 _ hrun
    refine ⟨l, hrun, hlines.trans ?_⟩
    rw [hwritten, hsteps _ rfl]
    decide +kernel
  · have hresult : (strict.run? 2).map Prod.fst =
        some (.error ⟨1, .ofVisit ⟨-5, 1⟩ 0, .stack .underflow⟩) := by decide +kernel
    obtain ⟨⟨_, l⟩, hrun, rfl⟩ := Option.map_eq_some_iff.1 hresult
    obtain ⟨n, written, _, _, hlines, _, _, hstrict⟩ :=
      trace_accounts_for_run strict l rfl rfl 2 _ hrun
    obtain ⟨hlength, hnone, hfails⟩ := hstrict rfl
    obtain ⟨k, hk, hfailed, hbefore⟩ := hfails _ rfl
    have hn : n = 2 := by
      obtain _ | _ | k := k
      · exact absurd hfailed (by decide +kernel)
      · exact hk
      · exact absurd (hbefore 1 (Nat.one_lt_succ_succ k)) (by decide +kernel)
    have hlines' : l.trace.lines.toList = written := hlines
    refine ⟨l, hrun, ?_, ?_⟩
    · rw [← Array.length_toList, hlines', hlength, hn]
      rfl
    · rw [hlines']
      exact hnone

end Machine

end GridWalk
