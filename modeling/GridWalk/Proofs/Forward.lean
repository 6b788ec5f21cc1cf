import GridWalk.Proofs.Iteration

/-!
# Programs that only jump forward

A conditional jump whose radius is beyond its own instruction leads past that instruction,
since the layout puts everything below the radius in front of the target. If all jumps of a
program are of this kind, every step moves the counter on, also a step that fails. A run
therefore ends within as many steps as the program has instructions, and executes none of
them twice.
-/

namespace GridWalk

namespace Program

/-- Every conditional jump has a radius beyond the distance of its own instruction. -/
def JumpsForward (p : Program) : Prop :=
  ∀ i ∈ p.instructions, ∀ radius, i.action = .jumpZero radius → i.radii.chebyshev < radius

/-- A jump to a radius beyond an instruction leads past the instruction. -/
theorem lt_jumpTarget {p : Program} {pc : ℕ} {i : Instruction} (hi : p.instructions[pc]? = some i)
    {radius : UInt32} (h : i.radii.chebyshev < radius) : pc < p.jumpTarget radius := by
  rw [jumpTarget_eq_countP]
  exact (p.chebyshev_lt_iff_lt_countP radius hi).1 h

end Program

namespace Machine

/-- A step of a program that only jumps forward moves the counter on, whatever comes of it. -/
theorem pc_lt_pc_step {m : Machine} (hp : m.program.JumpsForward) (h : m.isHalted = false) :
    m.pc < m.step.2.pc := by
  obtain ⟨i, hi⟩ := isHalted_eq_false_iff.1 h
  rw [step_of_some hi, pc_perform]
  rcases he : (m.execute i.action).1 with cause | _ | target
  · exact Nat.lt_succ_self m.pc
  · exact Nat.lt_succ_self m.pc
  · obtain ⟨radius, _, ha, _, _, rfl⟩ := execute_eq_jump_iff.1 he
    exact Program.lt_jumpTarget hi (hp i (Array.mem_of_getElem? hi) radius ha)

/-- A program that only jumps forward has a run with no more steps than it has instructions left. -/
theorem exists_runs_of_jumpsForward {m : Machine} (hp : m.program.JumpsForward) (left : ℕ)
    (hleft : m.program.size ≤ m.pc + left) (r : Report) :
    ∃ trail result l, Runs r m trail result l ∧ trail.length ≤ left := by
  induction left generalizing m r with
  | zero => exact ⟨[], .ok r, m, .halted (decide_eq_true hleft), Nat.le_refl 0⟩
  | succ left ih =>
    cases hh : m.isHalted with
    | true => exact ⟨[], .ok r, m, .halted hh, Nat.zero_le _⟩
    | false =>
      have hlt := pc_lt_pc_step hp hh
      cases hs : m.step.1 with
      | ok u =>
        obtain ⟨trail, result, l, hruns, hlength⟩ :=
          ih (m := m.step.2) (by rwa [program_step]) (by rw [program_step]; omega)
            { r with steps := r.steps + 1 }
        exact ⟨m :: trail, result, l, .ok hh hs hruns, Nat.succ_le_succ hlength⟩
      | error f =>
        cases hc : m.program.config.strict with
        | true =>
          exact ⟨[m], .error f, m.step.2, .strict hh hs hc, Nat.succ_le_succ (Nat.zero_le _)⟩
        | false =>
          have hskip := (Alike.traceFailure m.step.2 f).pc
          obtain ⟨trail, result, l, hruns, hlength⟩ :=
            ih (m := m.step.2.traceFailure f) (by rwa [program_traceFailure, program_step])
              (by rw [program_traceFailure, program_step, hskip]; omega)
              ⟨r.steps + 1, r.recovered + 1⟩
          exact ⟨m :: trail, result, l, .lenient hh hs hc hruns, Nat.succ_le_succ hlength⟩

/-- A run of a program that only jumps forward executes instructions in the order in which they are
laid out, none of them before the one at which it starts. -/
theorem Runs.pairwise_pc_lt {r : Report} {m l : Machine} {trail : List Machine}
    {result : Except Failure Report} (h : Runs r m trail result l) (hp : m.program.JumpsForward) :
    (∀ k ∈ trail, m.pc ≤ k.pc) ∧ trail.Pairwise fun a b => a.pc < b.pc := by
  have hcons {m n : Machine} {trail : List Machine} (hlt : m.pc < n.pc)
      (ih : (∀ k ∈ trail, n.pc ≤ k.pc) ∧ trail.Pairwise fun a b => a.pc < b.pc) :
      (∀ k ∈ m :: trail, m.pc ≤ k.pc) ∧ (m :: trail).Pairwise fun a b => a.pc < b.pc := by
    refine ⟨?_, List.pairwise_cons.2 ⟨fun k hk => hlt.trans_le (ih.1 k hk), ih.2⟩⟩
    rw [List.forall_mem_cons]
    exact ⟨Nat.le_refl m.pc, fun k hk => hlt.le.trans (ih.1 k hk)⟩
  induction h with
  | halted _ => exact ⟨by simp, .nil⟩
  | ok hh _ _ ih => exact hcons (pc_lt_pc_step hp hh) (ih (by rwa [program_step]))
  | strict _ _ _ => exact ⟨by simp, List.pairwise_singleton _ _⟩
  | @lenient r m f trail result l hh _ _ _ ih =>
    refine hcons ?_ (ih (by rwa [program_traceFailure, program_step]))
    rw [(Alike.traceFailure m.step.2 f).pc]
    exact pc_lt_pc_step hp hh

/-- A program that only jumps forward has one outcome, which every run with room for as many steps
as there are instructions comes to. It makes no more steps than that, and the instructions that it
executes are at increasing indices, so none of them is executed twice. -/
theorem forward_jumps_halt (p : Program) (hp : p.JumpsForward) (input : Input) (sink : Sink) :
    let m := p.machine input sink
    ∃ trail result l,
      (∀ limit, p.size ≤ limit →
        m.run? limit = some (result, l) ∧ m.traceListing.executed limit = trail) ∧
      trail.length ≤ p.size ∧
      (∀ report, result = .ok report → report.steps = trail.length) ∧
      (trail.map Machine.pc).Pairwise (· < ·) ∧ (trail.map Machine.pc).Nodup := by
  intro m
  have hm : m.traceListing.program = p := program_traceListing m
  have hp' : m.traceListing.program.JumpsForward := hm ▸ hp
  obtain ⟨trail, result, l, hruns, hlength⟩ :=
    exists_runs_of_jumpsForward hp' p.size (by rw [hm]; exact Nat.le_add_left _ _) {}
  have hpairwise : (trail.map Machine.pc).Pairwise (· < ·) :=
    List.pairwise_map.2 (hruns.pairwise_pc_lt hp').2
  refine ⟨trail, result, l, ?_, hlength, ?_, hpairwise, hpairwise.imp Nat.ne_of_lt⟩
  · intro limit hlimit
    have hle := hlength.trans hlimit
    exact ⟨hruns.runFrom?_eq hle, hruns.executed_eq hle⟩
  · intro report hreport
    rw [hruns.steps_eq hreport, Nat.zero_add]

/-- A jump past an instruction at its own Chebyshev distance, taken although the flush after it
fails, and then a difference of cells that are not there: three of four instructions are executed,
and two of them fail. -/
theorem forward_jumps_halt_tie :
    let p : Program := ⟨#[⟨.push ⟨0⟩, ⟨2, 1⟩, ⟨2, 3⟩⟩, ⟨.jumpZero 4, ⟨-1, -3⟩, ⟨3, 4⟩⟩,
      ⟨.push ⟨9⟩, ⟨3, 2⟩, ⟨3, 5⟩⟩, ⟨.sub, ⟨-5, 1⟩, ⟨5, 6⟩⟩], {}, by decide⟩
    let m := p.machine {} { flushes := [none, some ⟨.brokenPipe, "pipe"⟩] }
    p.JumpsForward ∧
    ∃ l, ∀ limit, 4 ≤ limit → m.run? limit = some (.ok ⟨3, 2⟩, l) ∧
      (m.traceListing.executed limit).map Machine.pc = [0, 1, 3] := by
  intro p m
  have hp : p.JumpsForward := by
    intro i hi radius ha
    simp only [p, List.mem_toArray, List.mem_cons, List.not_mem_nil, or_false] at hi
    rcases hi with rfl | rfl | rfl | rfl <;> cases ha
    decide
  obtain ⟨trail, result, l, hrun, _⟩ :=
    forward_jumps_halt p hp {} { flushes := [none, some ⟨.brokenPipe, "pipe"⟩] }
  obtain ⟨hends, hexecuted⟩ := hrun 4 (Nat.le_refl 4)
  have hresult : (m.run? 4).map Prod.fst = some (.ok ⟨3, 2⟩) := by decide +kernel
  have htrail : (m.traceListing.executed 4).map Machine.pc = [0, 1, 3] := by decide +kernel
  rw [hends] at hresult
  cases hresult
  refine ⟨hp, l, ?_⟩
  intro limit hlimit
  obtain ⟨hends', hexecuted'⟩ := hrun limit hlimit
  exact ⟨hends', by rw [hexecuted', ← hexecuted, htrail]⟩

end Machine

end GridWalk
