import GridWalk.Proofs.Halting

/-!
# What lies at the bottom of the stack

The operations of a stack count their cells from the top. One that can be done on a stack can be
done on the same stack above more cells, has the same result and leaves the cells below as they
are. A program that never asks for more cells than its stack has therefore runs the same above
any other cells.
-/

namespace GridWalk

namespace Stack

/-- The stack with more cells below it, given from bottom to top. -/
def above (s : Stack) (base : List Cell) : Stack := ⟨s.cells ++ base.reverse⟩

@[simp] theorem toList_above (s : Stack) (base : List Cell) :
    (s.above base).toList = base ++ s.toList := by
  simp [above, toList]

theorem eq_above_iff {s t : Stack} {base : List Cell} :
    t = s.above base ↔ t.toList = base ++ s.toList := by
  constructor
  · rintro rfl
    exact toList_above s base
  · intro h
    rw [← ofList_toList t, h, ← toList_above, ofList_toList]

section
variable {s t : Stack} {c : Cell}

theorem top_above (h : s.top = .ok c) (base : List Cell) : (s.above base).top = .ok c := by
  obtain ⟨cells⟩ := s
  cases cells with
  | nil => cases h
  | cons a rest => exact h

theorem pop_above (h : s.pop = .ok (c, t)) (base : List Cell) :
    (s.above base).pop = .ok (c, t.above base) := by
  obtain ⟨cells⟩ := s
  cases cells with
  | nil => cases h
  | cons a rest =>
    cases h
    rfl

theorem dup_above (h : s.dup = .ok t) (base : List Cell) :
    (s.above base).dup = .ok (t.above base) := by
  obtain ⟨cells⟩ := s
  cases cells with
  | nil => cases h
  | cons a rest =>
    cases h
    rfl

theorem combine_above {f : Cell → Cell → Cell} (h : s.combine f = .ok t) (base : List Cell) :
    (s.above base).combine f = .ok (t.above base) := by
  obtain ⟨cells⟩ := s
  rcases cells with _ | ⟨a, _ | ⟨b, rest⟩⟩
  · cases h
  · cases h
  · cases h
    rfl

/-- An exchange reaches as deep as its depth says, counted from the top. -/
theorem swap_above {depth : UInt64} (h : s.swap depth = .ok t) (base : List Cell) :
    (s.above base).swap depth = .ok (t.above base) := by
  obtain ⟨cells⟩ := s
  unfold swap at h ⊢
  cases hdepth : depth.toNat with
  | zero => simp [hdepth] at h
  | succ k =>
    cases cells with
    | nil => simp [hdepth] at h
    | cons a rest =>
      simp only [hdepth, above, List.cons_append] at h ⊢
      cases hb : (a :: rest)[k]? with
      | none => simp [hb] at h
      | some b =>
        have hk : k < (a :: rest).length := (List.getElem?_eq_some_iff.1 hb).1
        have hb' : (a :: (rest ++ base.reverse))[k]? = some b := by
          rw [← List.cons_append, List.getElem?_append_left hk, hb]
        have hset : (b :: (rest ++ base.reverse)).set k a =
            (b :: rest).set k a ++ base.reverse := by
          rw [← List.cons_append]
          exact List.set_append_left k a hk
        rw [hb] at h
        cases h
        simp only [hb', hset]

end

end Stack

namespace Machine

/-- The machine with more cells below its stack. -/
def above (m : Machine) (base : List Cell) : Machine := { m with stack := m.stack.above base }

/-- A stack operation that succeeds the same way above more cells is taken over the same way. -/
theorem onStack_above {m : Machine} {base : List Cell} {result result' : Except Stack.Error Stack}
    (h : ∀ s, result = .ok s → result' = .ok (s.above base))
    (hok : ∀ e, (m.onStack result).1 ≠ .error (.stack e)) :
    (m.above base).onStack result' = ((m.onStack result).1, (m.onStack result).2.above base) := by
  cases result with
  | ok s =>
    rw [h s rfl]
    rfl
  | error e => exact absurd rfl (hok e)

/-- An action that does not fail on the stack does the same above more cells, and leaves these
below its result. -/
theorem execute_above {m : Machine} {a : Action} (base : List Cell)
    (hok : ∀ e, (m.execute a).1 ≠ .error (.stack e)) :
    (m.above base).execute a = ((m.execute a).1, (m.execute a).2.above base) := by
  cases a with
  | nop => rfl
  | push c => rfl
  | dup => exact onStack_above (fun s hs => Stack.dup_above hs base) hok
  | swap depth => exact onStack_above (fun s hs => Stack.swap_above hs base) hok
  | sub => exact onStack_above (fun s hs => Stack.combine_above hs base) hok
  | greater => exact onStack_above (fun s hs => Stack.combine_above hs base) hok
  | jumpZero radius =>
    cases ht : m.stack.top with
    | error e =>
      refine absurd ?_ (hok e)
      simp only [execute, ht]
    | ok c =>
      have htop : (m.above base).stack.top = .ok c := Stack.top_above ht base
      simp only [execute, ht, htop]
      rfl
  | getChar =>
    simp only [execute, above]
    rcases m.input.readChar with ⟨_ | c, i⟩ <;> rfl
  | putChar =>
    rcases hp : m.stack.pop with e | ⟨c, s⟩
    · refine absurd ?_ (hok e)
      simp only [execute, hp]
    · have hpop : (m.above base).stack.pop = .ok (c, s.above base) := Stack.pop_above hp base
      simp only [execute, hp, hpop]
      rfl

/-- The second machine is in the state of the first, but has more cells below its stack. -/
def Framed (base : List Cell) : Machine → Machine → Prop :=
  Lockstep (fun s t => t.toList = base ++ s.toList) Eq Eq

namespace Framed

variable {base : List Cell} {m n : Machine}

/-- Up to what a step does not depend on, the second machine is the first above more cells. -/
theorem iff_alike : Framed base m n ↔ Alike (m.above base) n := by
  constructor
  · rintro ⟨hi, hpc, hs, hin, ho⟩
    exact ⟨hi, hpc, (Stack.eq_above_iff.2 hs).symm, hin, ho⟩
  · rintro ⟨hi, hpc, hs, hin, ho⟩
    exact ⟨hi, hpc, Stack.eq_above_iff.1 hs.symm, hin, ho⟩

/-- An action that does not fail on the stack has the same outcome and keeps the frame. -/
theorem execute (h : Framed base m n) {a : Action}
    (hok : ∀ e, (m.execute a).1 ≠ .error (.stack e)) :
    (m.execute a).1 = (n.execute a).1 ∧ Framed base (m.execute a).2 (n.execute a).2 := by
  obtain ⟨houtcome, hnext⟩ := (iff_alike.1 h).execute a
  rw [execute_above base hok] at houtcome hnext
  exact ⟨houtcome, iff_alike.2 hnext⟩

/-- A step that does not fail on the stack has the same outcome and keeps the frame: a failure of
its action would be the failure of the step, whatever the flush does. -/
theorem step (h : Framed base m n) (hok : ∀ f e, m.step.1 = .error f → f.cause ≠ .stack e) :
    m.step.1 = n.step.1 ∧ Framed base m.step.2 n.step.2 := by
  apply Lockstep.step h
  intro i hi
  apply h.execute
  intro e he
  rw [← h.instructions, ← h.pc] at hi
  refine hok ⟨m.pc, i, .stack e⟩ e ?_ rfl
  rw [step_of_some hi, perform_fst, he]
  rfl

/-- Steps that do not fail on the stack keep the frame. -/
theorem after (h : Framed base m n) {k : ℕ}
    (hok : ∀ j < k, ∀ f e, (m.after j).step.1 = .error f → f.cause ≠ .stack e) :
    Framed base (m.after k) (n.after k) := by
  induction k generalizing m n with
  | zero => exact h
  | succ k ih =>
    have hfirst := h.step (hok 0 (Nat.succ_pos k))
    exact ih hfirst.2 fun j hj => hok (j + 1) (Nat.succ_lt_succ hj)

end Framed

/-- If no step of a machine fails on the stack, the same machine with more cells at the bottom of
its stack takes the same steps: each has the same outcome, and they lead to the same counter,
input and output, and to the same stack above the same cells. -/
theorem steps_keep_frame (base : List Cell) (m n : Machine) (h : Framed base m n) (k : ℕ)
    (hok : ∀ j < k, ∀ f e, (m.after j).step.1 = .error f → f.cause ≠ .stack e) :
    (∀ j < k, (n.after j).step.1 = (m.after j).step.1) ∧
    (n.after k).pc = (m.after k).pc ∧ (n.after k).input = (m.after k).input ∧
    (n.after k).output = (m.after k).output ∧
    (n.after k).stack.toList = base ++ (m.after k).stack.toList := by
  have hk := h.after hok
  refine ⟨?_, hk.pc.symm, hk.input.symm, hk.output.symm, hk.stack⟩
  intro j hj
  have hbefore : Framed base (m.after j) (n.after j) := h.after fun i hi => hok i (hi.trans hj)
  exact (hbefore.step (hok j hj)).1.symm

/-- An exchange of the two cells there are, a character that cannot be written, and a jump back to
the start, above one more cell. The next exchange would reach that cell. -/
theorem steps_keep_frame_jump :
    let p : Program := ⟨#[.ofVisit ⟨-1, 2⟩ 2, .ofVisit ⟨3, -1⟩ 4, .ofVisit ⟨1, 4⟩ 5,
      .ofVisit ⟨-5, 1⟩ 6, .ofVisit ⟨-1, -6⟩ 2], {}, by decide⟩
    let pipe : Fault := ⟨.brokenPipe, "pipe"⟩
    let fresh := p.machine {} { replies := [.fault pipe] }
    let m := { fresh with stack := .ofList [⟨65⟩, ⟨66⟩] }
    let n := { fresh with stack := .ofList [⟨7⟩, ⟨65⟩, ⟨66⟩] }
    Framed [⟨7⟩] m n ∧
    (m.after 1).step.1 = .error ⟨1, .ofVisit ⟨3, -1⟩ 4, .write pipe⟩ ∧
    (n.after 1).step.1 = .error ⟨1, .ofVisit ⟨3, -1⟩ 4, .write pipe⟩ ∧
    (m.after 5).pc = 0 ∧ (n.after 5).pc = 0 ∧ (n.after 5).stack.toList = [⟨7⟩, ⟨0⟩] ∧
    (m.after 5).step.1 = .error ⟨0, .ofVisit ⟨-1, 2⟩ 2, .stack (.outOfRange 2 1)⟩ ∧
    (n.after 5).step.1 = .ok () := by
  intro p pipe fresh m n
  have hframed : Framed [⟨7⟩] m n := ⟨rfl, rfl, rfl, rfl, rfl⟩
  have houtcome : ∀ j < 5, (m.after j).step.1 =
      if j = 1 then .error ⟨1, .ofVisit ⟨3, -1⟩ 4, .write pipe⟩ else .ok () := by decide +kernel
  have hok : ∀ j < 5, ∀ f e, (m.after j).step.1 = .error f → f.cause ≠ .stack e := by
    intro j hj f e he
    rw [houtcome j hj] at he
    split_ifs at he
    cases he
    intro hcause
    cases hcause
  obtain ⟨hsame, hpc, _, _, hstack⟩ := steps_keep_frame [⟨7⟩] m n hframed 5 hok
  have hwrite := houtcome 1 (by decide)
  have hback : (m.after 5).pc = 0 := by decide +kernel
  exact ⟨hframed, hwrite, (hsame 1 (by decide)).trans hwrite, hback, hpc.trans hback,
    hstack.trans (by decide +kernel), by decide +kernel, by decide +kernel⟩

end Machine

end GridWalk
