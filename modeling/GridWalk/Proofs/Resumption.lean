import GridWalk.Proofs.Stepping
import Mathlib.Data.List.Forall2

/-!
# Resuming a strict program

A strict program stops at each failing instruction, and a lenient one skips it. The failing
step itself is the same in both, so a strict machine that is run again after each failure
makes the steps of the lenient one. `resume?` is that sequence of runs. It ends when the
lenient run ends, and its failures are those that the lenient run skipped.
-/

namespace GridWalk

namespace Machine

/-- The failures among the next `n` steps, each with the machine right after it. -/
def failures (n : ℕ) (m : Machine) : List (Failure × Machine) :=
  (m.steps n).filterMap fun s => match s.1 with
    | .ok () => none
    | .error f => some (f, s.2)

/-- Run again after every failure, for at most `calls` runs of at most `limit` steps each. The
result lists the failures, each with the machine right after it, and then the report and the
machine of the one run that ended well. -/
def resume? (limit : ℕ) : ℕ → Machine → Option (List (Failure × Machine) × Report × Machine)
  | 0, _ => none
  | calls + 1, m =>
    match m.run? limit with
    | none => none
    | some (.ok r, l) => some ([], r, l)
    | some (.error f, k) =>
      (resume? limit calls k).map fun (fails, r, l) => ((f, k) :: fails, r, l)

/-- The same failure, after which the machines are alike. -/
def SameFailure (a b : Failure × Machine) : Prop := a.1 = b.1 ∧ Alike a.2 b.2

/-! ### Failing steps -/

section
variable {m : Machine} {n : ℕ}

theorem failures_of_halted (h : m.isHalted = true) : failures n m = [] := by
  cases n <;> simp [failures, steps, h]

theorem failures_succ_of_ok (h : m.isHalted = false) (hs : m.step.1 = .ok ()) :
    failures (n + 1) m = failures n m.step.2 := by
  simp [failures, steps, h, hs]

theorem failures_succ_of_error {f : Failure} (h : m.isHalted = false)
    (hs : m.step.1 = .error f) :
    failures (n + 1) m = (f, m.step.2) :: failures n m.step.2 := by
  simp [failures, steps, h, hs]

end

/-! ### What a run reports -/

/-- A strict run skips nothing. -/
theorem Runs.recovered_eq_of_strict {r report : Report} {m l : Machine} {trail : List Machine}
    {result : Except Failure Report} (h : Runs r m trail result l) (hr : result = .ok report)
    (hc : m.program.config.strict = true) : report.recovered = r.recovered := by
  induction h with
  | halted =>
    cases hr
    rfl
  | ok _ _ _ ih => exact ih hr (by rwa [program_step])
  | strict => cases hr
  | lenient _ _ hl =>
    rw [hl] at hc
    cases hc

/-! ### Runs that are taken up again -/

/-- A sequence of runs, the first of which goes on from a report, each later one starting where
the one before it failed, and the last one ending well. The number counts the steps of all
of them. -/
inductive Resumes : ℕ → Report → Machine → List (Failure × Machine) → Report → Machine → Prop
  | done {r m trail r' l} : Runs r m trail (.ok r') l → Resumes trail.length r m [] r' l
  | failed {n r m trail f k fails r' l} : Runs r m trail (.error f) k →
      Resumes n {} k.traceListing fails r' l →
      Resumes (trail.length + n) r m ((f, k) :: fails) r' l

namespace Resumes

variable {n : ℕ} {r r' : Report} {m l : Machine} {fails : List (Failure × Machine)}

/-- A step that ends well belongs to the run that comes after it. -/
theorem of_ok (hh : m.isHalted = false) (hs : m.step.1 = .ok ())
    (h : Resumes n { r with steps := r.steps + 1 } m.step.2 fails r' l) :
    Resumes (n + 1) r m fails r' l := by
  cases h with
  | done h => exact .done (.ok hh hs h)
  | failed h hrest =>
    rw [Nat.add_right_comm]
    exact .failed (.ok hh hs h) hrest

/-- Such a sequence is found by running again, once for each failure and once more. -/
theorem resume?_eq (h : Resumes n r m fails r' l) {limit : ℕ} (hn : n ≤ limit) {k : Machine}
    (hk : k.run? limit = runFrom? limit r m) :
    k.resume? limit (fails.length + 1) = some (fails, r', l) := by
  induction h generalizing k with
  | done h =>
    rw [h.runFrom?_eq hn] at hk
    rw [resume?, hk]
  | failed h _ ih =>
    rw [h.runFrom?_eq (Nat.le_of_add_right_le hn)] at hk
    rw [resume?, hk]
    dsimp only
    rw [List.length_cons, ih (Nat.le_of_add_left_le hn) rfl]
    rfl

/-- A strict run that never fails counts its steps and nothing else. -/
theorem runFrom?_eq_of_nil (h : Resumes n r m [] r' l) (hc : m.program.config.strict = true)
    {limit : ℕ} (hn : n ≤ limit) :
    runFrom? limit r m = some (.ok { r with steps := r.steps + n }, l) := by
  cases h with
  | @done _ _ trail _ _ h =>
    have hr : r' = { r with steps := r.steps + trail.length } := by
      cases r'
      rw [Report.mk.injEq]
      exact ⟨h.steps_eq rfl, h.recovered_eq_of_strict rfl hc⟩
    rw [h.runFrom?_eq hn, hr]

end Resumes

/-- A lenient run is matched by strict runs that take turns. The machine `k` makes the steps
of the lenient run on its own, without the traces of a run. The three make the same steps, and
differ in what a failure makes of the report and the trace. -/
theorem Runs.exists_resumes {r report : Report} {m l : Machine} {trail : List Machine}
    {result : Except Failure Report} (h : Runs r m trail result l) (hr : result = .ok report)
    (hm : m.program.config.strict = false) (r' : Report) {s k : Machine}
    (hs : s.program.config.strict = true) (hms : Alike m s) (hkm : Alike k m) :
    ∃ fails last t, Resumes trail.length r' s fails last t ∧
      report.recovered = r.recovered + fails.length ∧
      List.Forall₂ SameFailure (k.failures trail.length) fails ∧ Alike l t := by
  induction h generalizing r' s k with
  | @halted r m hh =>
    cases hr
    have hhs : s.isHalted = true := hms.isHalted_eq ▸ hh
    have hhk : k.isHalted = true := hkm.isHalted_eq ▸ hh
    refine ⟨[], r', s, .done (.halted hhs), rfl, ?_, hms⟩
    rw [failures_of_halted hhk]
    exact .nil
  | @ok r m trail result l hh hok _ ih =>
    obtain ⟨hstep, hnext⟩ := hms.step
    obtain ⟨hstep', hnext'⟩ := hkm.step
    have hhs : s.isHalted = false := hms.isHalted_eq ▸ hh
    have hhk : k.isHalted = false := hkm.isHalted_eq.trans hh
    obtain ⟨fails, last, t, hres, hrec, hfails, hlt⟩ :=
      ih hr (by rwa [program_step]) { r' with steps := r'.steps + 1 } (by rwa [program_step])
        hnext hnext'
    refine ⟨fails, last, t, hres.of_ok hhs (hstep ▸ hok), hrec, ?_, hlt⟩
    rw [List.length_cons, failures_succ_of_ok hhk (hstep'.trans hok)]
    exact hfails
  | strict => cases hr
  | @lenient r m f trail result l hh herr _ _ ih =>
    obtain ⟨hstep, hnext⟩ := hms.step
    obtain ⟨hstep', hnext'⟩ := hkm.step
    have hhs : s.isHalted = false := hms.isHalted_eq ▸ hh
    have hhk : k.isHalted = false := hkm.isHalted_eq.trans hh
    have hskip := Alike.traceFailure m.step.2 f
    have hlist := Alike.traceListing s.step.2
    obtain ⟨fails, last, t, hres, hrec, hfails, hlt⟩ :=
      ih hr (by rwa [program_traceFailure, program_step]) {}
        (by rwa [program_traceListing, program_step]) ((hskip.trans hnext).trans hlist.symm)
        (hnext'.trans hskip.symm)
    refine ⟨(f, s.step.2) :: fails, last, t, ?_, ?_, ?_, hlt⟩
    · rw [List.length_cons, Nat.add_comm]
      exact .failed (.strict hhs (hstep ▸ herr) hs) hres
    · rw [hrec, List.length_cons, Nat.add_right_comm, Nat.add_assoc]
    · rw [List.length_cons, failures_succ_of_error hhk (hstep'.trans herr)]
      exact .cons ⟨rfl, hnext'.trans hnext⟩ hfails

/-- A lenient run that ends having skipped some failures is matched by running the strict
program again after each of them: it fails as often, each time with the same failure and with
the same counter, stack, input and output, and then ends well where the lenient run does. With
nothing to skip, the two runs report the same. -/
theorem strict_resumption_eq_lenient (instructions : List Instruction) (debug : Bool)
    (input : Input) (sink : Sink) (limit : ℕ) (report : Report) (l : Machine)
    (h : ((Program.ofList instructions ⟨false, debug⟩).machine input sink).run? limit =
      some (.ok report, l)) :
    let lenient := (Program.ofList instructions ⟨false, debug⟩).machine input sink
    let strict := (Program.ofList instructions ⟨true, debug⟩).machine input sink
    ∃ fails last t, strict.resume? limit (report.recovered + 1) = some (fails, last, t) ∧
      fails.length = report.recovered ∧
      List.Forall₂ SameFailure (lenient.failures report.steps) fails ∧ Alike l t ∧
      (report.recovered = 0 → strict.run? limit = some (.ok report, t)) := by
  intro lenient strict
  have hrun := runs_of_runFrom? h
  have halike : Alike lenient strict := ⟨rfl, rfl, rfl, rfl, rfl⟩
  have hlist := Alike.traceListing lenient
  have hlist' := Alike.traceListing strict
  obtain ⟨fails, last, t, hres, hrec, hfails, hlt⟩ :=
    hrun.exists_resumes rfl (by rw [program_traceListing]; rfl) {}
      (by rw [program_traceListing]; rfl) ((hlist.trans halike).trans hlist'.symm) hlist.symm
  have hsteps : report.steps = (lenient.traceListing.executed limit).length := by
    rw [hrun.steps_eq rfl, Nat.zero_add]
  have hlimit : (lenient.traceListing.executed limit).length ≤ limit := length_executed_le _ _
  rw [Nat.zero_add] at hrec
  refine ⟨fails, last, t, ?_, hrec.symm, ?_, hlt, ?_⟩
  · rw [hrec]
    exact hres.resume?_eq hlimit rfl
  · rw [hsteps]
    exact hfails
  · intro hzero
    have hnil : fails = [] := List.eq_nil_of_length_eq_zero (hrec ▸ hzero)
    have hreport : report = { steps := report.steps } := by
      cases report
      rw [Report.mk.injEq]
      exact ⟨rfl, hzero⟩
    rw [hreport, hsteps]
    subst hnil
    have hstrict := hres.runFrom?_eq_of_nil (by rw [program_traceListing]; rfl) hlimit
    rwa [Nat.zero_add] at hstrict

/-- A program that fails twice, at a copy of a cell that is not there and at a flush after a
jump that is taken all the same, is run three times when it is strict. -/
theorem strict_resumption_eq_lenient_jump :
    let instructions : List Instruction := [.ofVisit ⟨3, 1⟩ 0, .ofVisit ⟨1, 2⟩ 0,
      .ofVisit ⟨-1, -4⟩ 5, .ofVisit ⟨-2, 4⟩ 9, .ofVisit ⟨1, 5⟩ 7]
    let sink : Sink := { flushes := [none, none, some ⟨.brokenPipe, "pipe"⟩] }
    let lenient := (Program.ofList instructions ⟨false, false⟩).machine {} sink
    let strict := (Program.ofList instructions ⟨true, false⟩).machine {} sink
    ∃ l, lenient.run? 4 = some (.ok ⟨4, 2⟩, l) ∧
      ∃ fails last t, strict.resume? 4 3 = some (fails, last, t) ∧ fails.length = 2 ∧
        List.Forall₂ SameFailure (lenient.failures 4) fails ∧ Alike l t := by
  intro instructions sink lenient strict
  have hresult : (lenient.run? 4).map Prod.fst = some (.ok ⟨4, 2⟩) := by cbv
  obtain ⟨⟨_, l⟩, h, rfl⟩ := Option.map_eq_some_iff.1 hresult
  obtain ⟨fails, last, t, hres, hlen, hfails, hlt, _⟩ :=
    strict_resumption_eq_lenient instructions false {} sink 4 ⟨4, 2⟩ l h
  exact ⟨l, h, fails, last, t, hres, hlen, hfails, hlt⟩

end Machine

end GridWalk
