import GridWalk.Proofs.Stepping

/-!
# Halting

`after` leads to the machine behind a number of steps. A halted machine stays as it is, so
there is at most one number of steps after which a machine has halted and before which it
has not. A lenient run makes exactly these steps: it ends within a limit if and only if the
machine halts within the limit.
-/

namespace GridWalk.Machine

/-- The machine after so many steps. -/
def after : ℕ → Machine → Machine
  | 0, m => m
  | n + 1, m => after n m.step.2

/-- The machine has halted after so many steps, and not before. -/
structure HaltsAfter (n : ℕ) (m : Machine) : Prop where
  /-- It has halted then. -/
  halted : (m.after n).isHalted = true
  /-- It has not halted before. -/
  running : ∀ k < n, (m.after k).isHalted = false

/-- Machines that run for as long as each other halt after the same number of steps. -/
theorem haltsAfter_congr {m n : Machine} (h : ∀ k, (m.after k).isHalted = (n.after k).isHalted)
    {k : ℕ} : HaltsAfter k m ↔ HaltsAfter k n := by
  constructor
  · rintro ⟨hk, hlt⟩
    exact ⟨(h k).symm.trans hk, fun j hj => (h j).symm.trans (hlt j hj)⟩
  · rintro ⟨hk, hlt⟩
    exact ⟨(h k).trans hk, fun j hj => (h j).trans (hlt j hj)⟩

/-- Machines stay in lockstep over any number of steps if one step keeps them there. -/
theorem Lockstep.after {S : Stack → Stack → Prop} {I : Input → Input → Prop}
    {O : Output → Output → Prop}
    (hstep : ∀ m n, Lockstep S I O m n → Lockstep S I O m.step.2 n.step.2) {m n : Machine}
    (h : Lockstep S I O m n) (k : ℕ) : Lockstep S I O (m.after k) (n.after k) := by
  induction k generalizing m n with
  | zero => exact h
  | succ k ih => exact ih (hstep m n h)

/-- Machines that are alike stay alike. -/
theorem Alike.after {m n : Machine} (h : Alike m n) (k : ℕ) : Alike (m.after k) (n.after k) :=
  Lockstep.after (fun _ _ h => (Alike.step h).2) h k

theorem Alike.haltsAfter_iff {m n : Machine} (h : Alike m n) {k : ℕ} :
    HaltsAfter k m ↔ HaltsAfter k n :=
  haltsAfter_congr fun k => (h.after k).isHalted_eq

section
variable {m : Machine} {n : ℕ}

theorem haltsAfter_zero : HaltsAfter 0 m ↔ m.isHalted = true :=
  ⟨fun h => h.halted, fun h => ⟨h, fun _ hk => absurd hk (Nat.not_lt_zero _)⟩⟩

/-- A machine that has not halted goes on with a step. -/
theorem haltsAfter_succ : HaltsAfter (n + 1) m ↔ m.isHalted = false ∧ HaltsAfter n m.step.2 := by
  constructor
  · rintro ⟨hn, hlt⟩
    exact ⟨hlt 0 n.succ_pos, hn, fun k hk => hlt (k + 1) (Nat.succ_lt_succ hk)⟩
  · rintro ⟨hm, hn, hlt⟩
    refine ⟨hn, ?_⟩
    intro k hk
    cases k with
    | zero => exact hm
    | succ k => exact hlt k (Nat.lt_of_succ_lt_succ hk)

end

/-! ### Lenient runs -/

/-- A lenient run makes the steps after which the machine has halted. The failures that it traces
between them change nothing about the steps. -/
theorem Runs.haltsAfter {r : Report} {m l : Machine} {trail : List Machine}
    {result : Except Failure Report} (h : Runs r m trail result l)
    (hc : m.program.config.strict = false) : HaltsAfter trail.length m := by
  induction h with
  | halted hh => exact haltsAfter_zero.2 hh
  | ok hh _ _ ih => exact haltsAfter_succ.2 ⟨hh, ih (by rwa [program_step])⟩
  | strict _ _ hs =>
    rw [hs] at hc
    cases hc
  | @lenient r m f trail result l hh _ _ _ ih =>
    have hnext := ih (by rwa [program_traceFailure, program_step])
    exact haltsAfter_succ.2 ⟨hh, (Alike.traceFailure m.step.2 f).haltsAfter_iff.1 hnext⟩

/-- A machine that halts has a lenient run of as many steps, whatever fails on the way. -/
theorem HaltsAfter.exists_runs {n : ℕ} {m : Machine} (h : HaltsAfter n m)
    (hc : m.program.config.strict = false) (r : Report) :
    ∃ trail report l, Runs r m trail (.ok report) l ∧ trail.length = n := by
  induction n generalizing m r with
  | zero => exact ⟨[], r, m, .halted (haltsAfter_zero.1 h), rfl⟩
  | succ n ih =>
    obtain ⟨hh, hn⟩ := haltsAfter_succ.1 h
    cases hs : m.step.1 with
    | ok u =>
      obtain ⟨trail, report, l, hrun, hlength⟩ :=
        ih hn (by rwa [program_step]) { r with steps := r.steps + 1 }
      exact ⟨m :: trail, report, l, .ok hh hs hrun, congrArg (· + 1) hlength⟩
    | error f =>
      have hnext := (Alike.traceFailure m.step.2 f).haltsAfter_iff.2 hn
      obtain ⟨trail, report, l, hrun, hlength⟩ :=
        ih hnext (by rwa [program_traceFailure, program_step]) ⟨r.steps + 1, r.recovered + 1⟩
      exact ⟨m :: trail, report, l, .lenient hh hs hc hrun, congrArg (· + 1) hlength⟩

/-- A lenient run ends within a limit, after so many steps, exactly if the machine halts after so
many steps and the limit allows them. -/
theorem exists_run?_iff_haltsAfter {m : Machine} (hc : m.program.config.strict = false)
    (limit n : ℕ) :
    (∃ report l, m.run? limit = some (.ok report, l) ∧ report.steps = n) ↔
      HaltsAfter n m ∧ n ≤ limit := by
  have hlist := Alike.traceListing m
  have hc' : m.traceListing.program.config.strict = false := by rwa [program_traceListing]
  constructor
  · rintro ⟨report, l, hrun, rfl⟩
    have hruns := runs_of_runFrom? hrun
    have hsteps := hruns.steps_eq rfl
    rw [Nat.zero_add] at hsteps
    rw [hsteps]
    exact ⟨hlist.haltsAfter_iff.1 (hruns.haltsAfter hc'), length_executed_le limit m.traceListing⟩
  · rintro ⟨hn, hle⟩
    obtain ⟨trail, report, l, hruns, rfl⟩ := (hlist.haltsAfter_iff.2 hn).exists_runs hc' {}
    have hsteps := hruns.steps_eq rfl
    rw [Nat.zero_add] at hsteps
    exact ⟨report, l, hruns.runFrom?_eq hle, hsteps⟩

end GridWalk.Machine
