import GridWalk.Proofs.Halting
import GridWalk.Proofs.Layout

/-!
# Runs as iterated steps

The counter of a machine stays within its program, since a step moves it on by one from an
instruction or to the target of a jump, and neither leads past the end. A machine has
therefore halted exactly when its counter is at the end. A lenient run is a number of steps in
a row: the least number after which the machine has halted. It adds nothing to them but lines
of the trace, and it may be started after any part of them.
-/

namespace GridWalk

/-- A jump does not lead past the end. -/
theorem Program.jumpTarget_le_size (p : Program) (radius : UInt32) : p.jumpTarget radius ≤ p.size :=
  (p.isLeast_jumpTarget radius).2 (Or.inr rfl)

namespace Machine

/-! ### What calls keep -/

/-- A property of machines that steps keep and that tracing does not change. -/
structure Kept (P : Machine → Prop) : Prop where
  /-- A step keeps it. -/
  step : ∀ m, P m → P m.step.2
  /-- Tracing a failure keeps it. -/
  traceFailure : ∀ m f, P m → P (m.traceFailure f)
  /-- Tracing the listing keeps it. -/
  traceListing : ∀ m, P m → P m.traceListing

namespace Kept

variable {P : Machine → Prop}

/-- A run keeps what its steps keep. -/
theorem runs (hP : Kept P) {r : Report} {m l : Machine} {trail : List Machine}
    {result : Except Failure Report} (h : Runs r m trail result l) (hm : P m) : P l := by
  induction h with
  | halted _ => exact hm
  | ok _ _ _ ih => exact ih (hP.step _ hm)
  | strict _ _ _ => exact hP.step _ hm
  | @lenient r m f trail result l _ _ _ _ ih => exact ih (hP.traceFailure _ f (hP.step m hm))

/-- A sequence of calls keeps what steps keep. -/
theorem reaches (hP : Kept P) {m k : Machine} {trail : List Machine} (h : Reaches m trail k)
    (hm : P m) : P k := by
  induction h with
  | refl => exact hm
  | step _ ih => exact hP.step _ ih
  | run _ hrun ih => exact hP.runs (runs_of_runFrom? hrun) (hP.traceListing _ ih)

end Kept

/-- Calls keep the program. -/
theorem kept_program (p : Program) : Kept fun m => m.program = p where
  step m h := (program_step m).trans h
  traceFailure m f h := (program_traceFailure m f).trans h
  traceListing m h := (program_traceListing m).trans h

/-! ### The counter -/

/-- An action jumps exactly if it is a conditional jump and the top of the stack is zero. It goes
to the target of its radius. -/
theorem execute_eq_jump_iff {m : Machine} {a : Action} {target : ℕ} :
    (m.execute a).1 = .ok (.jump target) ↔
      ∃ radius c, a = .jumpZero radius ∧ m.stack.top = .ok c ∧ c.isZero = true ∧
        m.program.jumpTarget radius = target := by
  have hstack (result : Except Stack.Error Stack) : (m.onStack result).1 ≠ .ok (.jump target) := by
    cases result <;> simp [onStack]
  cases a with
  | nop => simp [execute]
  | push c => simp [execute]
  | dup => simp [execute, hstack]
  | swap depth => simp [execute, hstack]
  | sub => simp [execute, hstack]
  | greater => simp [execute, hstack]
  | jumpZero radius =>
    unfold execute
    cases ht : m.stack.top with
    | error e => simp
    | ok c => cases hz : c.isZero <;> simp [hz]
  | getChar =>
    unfold execute
    rcases m.input.readChar with ⟨_ | c, i⟩ <;> simp
  | putChar =>
    unfold execute
    rcases m.stack.pop with e | ⟨c, s⟩ <;> simp

/-- A step does not lead past the end. -/
theorem pc_step_le {m : Machine} (h : m.pc ≤ m.program.size) : m.step.2.pc ≤ m.program.size := by
  cases hi : m.program.instructions[m.pc]? with
  | none =>
    rw [step_of_none hi]
    exact h
  | some i =>
    have hlt : m.pc < m.program.size := (Array.getElem?_eq_some_iff.1 hi).1
    rw [step_of_some hi, pc_perform]
    rcases he : (m.execute i.action).1 with cause | _ | target
    · exact hlt
    · exact hlt
    · obtain ⟨radius, _, _, _, _, rfl⟩ := execute_eq_jump_iff.1 he
      exact m.program.jumpTarget_le_size radius

/-- Calls keep the counter within the program or at its end. -/
theorem kept_pc_le : Kept fun m => m.pc ≤ m.program.size where
  step m h := by
    rw [program_step]
    exact pc_step_le h
  traceFailure m f h := by
    rw [program_traceFailure, (Alike.traceFailure m f).pc]
    exact h
  traceListing m h := by
    rw [program_traceListing, (Alike.traceListing m).pc]
    exact h

/-- A machine whose counter is not past the end has halted exactly at the end. -/
theorem isHalted_iff_pc_eq {m : Machine} (h : m.pc ≤ m.program.size) :
    m.isHalted = true ↔ m.pc = m.program.size := by
  rw [isHalted, decide_eq_true_iff]
  omega

/-- A halted machine stays halted on other streams, and does not touch them. -/
theorem step_with_streams {m : Machine} (h : m.isHalted = true) (i : Input) (o : Output) :
    ({ m with input := i, output := o } : Machine).step =
      (.ok (), { m with input := i, output := o }) :=
  step_of_none (isHalted_iff.1 h)

/-! ### Steps in a row -/

/-- The number of failures among the next steps. -/
def failed (n : ℕ) (m : Machine) : ℕ := (List.range n).countP fun k => !(m.after k).step.1.isOk

theorem failed_succ (n : ℕ) (m : Machine) :
    failed (n + 1) m = failed n m.step.2 + if m.step.1.isOk then 0 else 1 := by
  rw [failed, List.range_succ_eq_map, List.countP_cons, List.countP_map]
  cases hs : m.step.1.isOk <;> simp [failed, after, hs, Function.comp_def]

theorem failed_succ_of_ok {m : Machine} (hs : m.step.1 = .ok ()) (n : ℕ) :
    failed (n + 1) m = failed n m.step.2 := by
  rw [failed_succ, hs]
  rfl

theorem failed_succ_of_error {m : Machine} {f : Failure} (hs : m.step.1 = .error f) (n : ℕ) :
    failed (n + 1) m = failed n m.step.2 + 1 := by
  rw [failed_succ, hs]
  rfl

/-- Machines that are alike fail as often. -/
theorem Alike.failed_eq {m n : Machine} (h : Alike m n) (k : ℕ) : failed k m = failed k n := by
  rw [failed, failed]
  apply List.countP_congr
  intro j _
  rw [(h.after j).step.1]

theorem after_add (k n : ℕ) (m : Machine) : m.after (k + n) = (m.after k).after n := by
  induction k generalizing m with
  | zero => rw [Nat.zero_add]; rfl
  | succ k ih => rw [Nat.succ_add]; exact ih m.step.2

@[simp] theorem program_after (n : ℕ) (m : Machine) : (m.after n).program = m.program := by
  induction n generalizing m with
  | zero => rfl
  | succ n ih => exact (ih m.step.2).trans (program_step m)

namespace HaltsAfter

variable {m : Machine} {n : ℕ}

/-- There is only one number of steps after which a machine has just halted. -/
theorem unique (h : HaltsAfter n m) {k : ℕ} (hk : HaltsAfter k m) : k = n := by
  rcases Nat.lt_trichotomy k n with hlt | heq | hlt
  · have hrunning := h.running k hlt
    rw [hk.halted] at hrunning
    cases hrunning
  · exact heq
  · have hrunning := hk.running n hlt
    rw [h.halted] at hrunning
    cases hrunning

/-- After a part of its steps, a machine halts after the rest of them. -/
theorem after (h : HaltsAfter n m) {k : ℕ} (hk : k ≤ n) : HaltsAfter (n - k) (m.after k) := by
  constructor
  · rw [← after_add, Nat.add_sub_cancel' hk]
    exact h.halted
  · intro j hj
    rw [← after_add]
    exact h.running (k + j) (by omega)

end HaltsAfter

/-! ### Which steps a run makes -/

/-- Machines that are alike and run the same program differ in their traces only. -/
theorem Alike.eq_with_trace {m n : Machine} (h : Alike m n) (hp : m.program = n.program) :
    m = { n with trace := m.trace } := by
  obtain ⟨_, hpc, hstack, hinput, houtput⟩ := h
  cases m
  cases n
  simp_all

theorem traceFailure_of_silent {m : Machine} (h : m.program.config.debug = false) (f : Failure) :
    m.traceFailure f = m := by
  rw [Machine.traceFailure, h]
  rfl

theorem traceListing_of_silent {m : Machine} (h : m.program.config.debug = false) :
    m.traceListing = m := by
  rw [Machine.traceListing, h]
  rfl

/-- A lenient run ends well. It counts its steps and the failures among them, and leaves the
machine that these steps lead to. -/
theorem Runs.eq_of_lenient {r : Report} {m l : Machine} {trail : List Machine}
    {result : Except Failure Report} (h : Runs r m trail result l)
    (hc : m.program.config.strict = false) :
    result = .ok ⟨r.steps + trail.length, r.recovered + failed trail.length m⟩ ∧
    Alike l (m.after trail.length) ∧
    (m.program.config.debug = false → l = m.after trail.length) := by
  induction h with
  | @halted r m _ => exact ⟨rfl, Alike.refl m, fun _ => rfl⟩
  | @ok r m trail result l _ hs _ ih =>
    obtain ⟨hresult, hlast, hsilent⟩ := ih (by rwa [program_step])
    rw [program_step] at hsilent
    refine ⟨?_, hlast, hsilent⟩
    rw [hresult, List.length_cons, failed_succ_of_ok hs]
    congr 2
    exact Nat.add_right_comm _ _ _
  | strict _ _ hs =>
    rw [hs] at hc
    cases hc
  | @lenient r m f trail result l _ hs _ _ ih =>
    have hskip := Alike.traceFailure m.step.2 f
    obtain ⟨hresult, hlast, hsilent⟩ := ih (by rwa [program_traceFailure, program_step])
    rw [program_traceFailure, program_step] at hsilent
    refine ⟨?_, hlast.trans (hskip.after _), ?_⟩
    · rw [hresult, List.length_cons, failed_succ_of_error hs, hskip.failed_eq]
      congr 2
      · exact Nat.add_right_comm _ _ _
      · exact Nat.add_right_comm _ _ _
    · intro hd
      rw [hsilent hd, traceFailure_of_silent (by rwa [program_step])]
      rfl

/-- A run makes its steps while the machine has not halted. -/
theorem Runs.running {r : Report} {m l : Machine} {trail : List Machine}
    {result : Except Failure Report} (h : Runs r m trail result l) :
    ∀ k < trail.length, (m.after k).isHalted = false := by
  induction h with
  | halted _ => exact fun k hk => absurd hk (Nat.not_lt_zero k)
  | ok hh _ _ ih =>
    intro k hk
    cases k with
    | zero => exact hh
    | succ k => exact ih k (Nat.lt_of_succ_lt_succ hk)
  | strict hh _ _ =>
    intro k hk
    rw [Nat.lt_one_iff.1 hk]
    exact hh
  | @lenient r m f trail result l hh _ _ _ ih =>
    intro k hk
    cases k with
    | zero => exact hh
    | succ k =>
      rw [after, ← ((Alike.traceFailure m.step.2 f).after k).isHalted_eq]
      exact ih k (Nat.lt_of_succ_lt_succ hk)

/-- A run that fails does so at the first of its steps that fails. -/
theorem Runs.first_failure {r : Report} {m l : Machine} {trail : List Machine}
    {result : Except Failure Report} (h : Runs r m trail result l) {f : Failure}
    (hr : result = .error f) :
    ∃ k, trail.length = k + 1 ∧ (m.after k).step.1 = .error f ∧
      ∀ j < k, (m.after j).step.1 = .ok () := by
  induction h with
  | halted _ => cases hr
  | ok _ hs _ ih =>
    obtain ⟨k, hk, hfails, hbefore⟩ := ih hr
    refine ⟨k + 1, congrArg (· + 1) hk, hfails, ?_⟩
    intro j hj
    cases j with
    | zero => exact hs
    | succ j => exact hbefore j (Nat.lt_of_succ_lt_succ hj)
  | strict _ hs _ =>
    cases hr
    exact ⟨0, rfl, hs, fun j hj => absurd hj (Nat.not_lt_zero j)⟩
  | lenient _ _ hc hrest _ =>
    have hok := (hrest.eq_of_lenient (by rwa [program_traceFailure, program_step])).1
    rw [hr] at hok
    cases hok

/-- Runs of a machine make so many steps and lead to `l`: with a lower limit they do not end, and
else they report these steps and the failures among them. The machine they leave is `l` up to
the trace, and it is `l` itself if the program does not debug. -/
def RunMakes (n : ℕ) (m l : Machine) : Prop :=
  ∃ k, (∀ limit, m.run? limit = if n ≤ limit then some (.ok ⟨n, failed n m⟩, k) else none) ∧
    k = { l with trace := k.trace } ∧ (m.program.config.debug = false → k = l)

/-- A lenient run ends well. -/
theorem run?_ne_error {m : Machine} (hc : m.program.config.strict = false) (limit : ℕ)
    (f : Failure) (l : Machine) : m.run? limit ≠ some (.error f, l) := by
  intro h
  have hresult := ((runs_of_runFrom? h).eq_of_lenient (by rwa [program_traceListing])).1
  cases hresult

/-- A lenient run makes the steps after which the machine has halted. Ending within a lower limit, it
would have halted the machine before. -/
theorem HaltsAfter.runMakes {n : ℕ} {m : Machine} (h : HaltsAfter n m)
    (hc : m.program.config.strict = false) : RunMakes n m (m.after n) := by
  have hlist := Alike.traceListing m
  have hc' : m.traceListing.program.config.strict = false := by rwa [program_traceListing]
  obtain ⟨trail, report, k, hruns, rfl⟩ := (hlist.haltsAfter_iff.2 h).exists_runs hc' {}
  obtain ⟨hresult, hlast, hsilent⟩ := hruns.eq_of_lenient hc'
  have hlast' := hlast.trans (hlist.after _)
  have hp : k.program = m.program := (kept_program _).runs hruns (program_traceListing m)
  refine ⟨k, ?_, ?_, ?_⟩
  · intro limit
    split_ifs with hle
    · rw [run?, hruns.runFrom?_eq hle, hresult, Nat.zero_add, Nat.zero_add, hlist.failed_eq]
    · rw [Option.eq_none_iff_forall_ne_some]
      rintro ⟨result, l⟩ hrun
      have hother := (runs_of_runFrom? hrun).haltsAfter hc'
      have heq := h.unique (hlist.haltsAfter_iff.1 hother)
      exact hle (heq ▸ length_executed_le limit m.traceListing)
  · exact hlast'.eq_with_trace (hp.trans (program_after _ m).symm)
  · intro hd
    rw [hsilent (by rwa [program_traceListing]), traceListing_of_silent hd]

/-- After every sequence of calls, the counter is within the program or at its end, and the machine
has halted exactly at the end. A halted machine takes a step well, stays as it is and calls on none
of its streams, whatever they hold. A lenient run never fails. If the machine halts after `n` steps
and not before, its runs are these steps, also when some of the steps are made before the run. -/
theorem run_iterates_step (p : Program) (input : Input) (sink : Sink) (trail : List Machine)
    (m : Machine) (h : Reaches (p.machine input sink) trail m) :
    m.pc ≤ p.size ∧ (m.isHalted = true ↔ m.pc = p.size) ∧
    (m.isHalted = true → m.step = (.ok (), m) ∧
      ∀ i o, ({ m with input := i, output := o } : Machine).step =
        (.ok (), { m with input := i, output := o })) ∧
    (p.config.strict = false →
      (∀ limit f l, m.run? limit ≠ some (.error f, l)) ∧
      ∀ n, HaltsAfter n m →
        RunMakes n m (m.after n) ∧ ∀ k ≤ n, RunMakes (n - k) (m.after k) (m.after n)) := by
  have hp : m.program = p := (kept_program p).reaches h rfl
  have hpc : m.pc ≤ m.program.size := kept_pc_le.reaches h (Nat.zero_le _)
  have hend := isHalted_iff_pc_eq hpc
  rw [hp] at hpc hend
  refine ⟨hpc, hend, ?_, ?_⟩
  · intro hh
    exact ⟨step_of_none (isHalted_iff.1 hh), step_with_streams hh⟩
  · intro hc
    rw [← hp] at hc
    refine ⟨run?_ne_error hc, ?_⟩
    intro n hn
    refine ⟨hn.runMakes hc, ?_⟩
    intro k hk
    have hrest := (hn.after hk).runMakes (by rwa [program_after])
    rwa [← after_add, Nat.add_sub_cancel' hk] at hrest

/-- A program that writes a character to a broken sink and copies a cell that is not there, after
its first step: two steps are left, and both fail. One step later, one is left. -/
theorem run_iterates_step_failing :
    let p : Program := ⟨#[.ofVisit ⟨2, 1⟩ 65, .ofVisit ⟨3, -1⟩ 7, .ofVisit ⟨1, 4⟩ 8], {}, by decide⟩
    let fresh := p.machine {} { replies := [.fault ⟨.brokenPipe, "pipe"⟩] }
    let m := fresh.step.2
    (∃ trail, Reaches fresh trail m) ∧ m.pc = 1 ∧ m.isHalted = false ∧
    HaltsAfter 2 m ∧ failed 2 m = 2 ∧ RunMakes 2 m (m.after 2) ∧
    failed 1 (m.after 1) = 1 ∧ RunMakes 1 (m.after 1) (m.after 2) ∧
    (m.after 2).isHalted = true ∧ (m.after 2).step = (.ok (), m.after 2) := by
  intro p fresh m
  have hreach : Reaches fresh _ m := Reaches.refl.step
  have hlater : Reaches fresh _ (m.after 2) := hreach.step.step
  have hhalts : HaltsAfter 2 m := ⟨by decide, by decide⟩
  obtain ⟨_, _, _, hlenient⟩ := run_iterates_step p {} _ _ m hreach
  obtain ⟨hruns, hrest⟩ := (hlenient rfl).2 2 hhalts
  obtain ⟨_, _, hstays, _⟩ := run_iterates_step p {} _ _ (m.after 2) hlater
  exact ⟨⟨_, hreach⟩, by decide, by decide, hhalts, by decide, hruns, by decide,
    hrest 1 (by decide), hhalts.halted, (hstays hhalts.halted).1⟩

end Machine

end GridWalk
