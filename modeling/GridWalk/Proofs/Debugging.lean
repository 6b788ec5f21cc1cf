import GridWalk.Proofs.Stepping
import Mathlib.Data.List.Forall2

/-!
# Debugging only observes

A machine is driven by calls that make one step or a run. `Call.Answer` is what a call
returns. Machines that differ in their debug flag and in their trace answer every sequence of
calls alike, and are alike after each of the calls.
-/

namespace GridWalk

section
variable {α α' β β' : Type} {R : α → α' → Prop} {S : β → β' → Prop} {x : Option α} {y : Option α'}

theorem rel_map {f : α → β} {g : α' → β'} (h : Option.Rel R x y)
    (hfg : ∀ a b, R a b → S (f a) (g b)) : Option.Rel S (x.map f) (y.map g) := by
  cases h with
  | some h => exact .some (hfg _ _ h)
  | none => exact .none

theorem rel_bind {f : α → Option β} {g : α' → Option β'} (h : Option.Rel R x y)
    (hfg : ∀ a b, R a b → Option.Rel S (f a) (g b)) : Option.Rel S (x.bind f) (y.bind g) := by
  cases h with
  | some h => exact hfg _ _ h
  | none => exact .none

end

/-- A call on a machine. A run is given a number of steps. -/
inductive Call where
  | step
  | run (limit : ℕ)
  deriving DecidableEq, Repr

/-- What a call returns. -/
inductive Call.Answer where
  | stepped (result : Except Failure Unit)
  | ran (result : Except Failure Report)
  deriving DecidableEq

namespace Machine

/-- Make a call. The result is `none` for a run that does not come to an end. -/
def call? (m : Machine) : Call → Option (Call.Answer × Machine)
  | .step => some (.stepped m.step.1, m.step.2)
  | .run limit => (m.run? limit).map fun (result, l) => (.ran result, l)

/-- Make calls one after the other. The result lists the answers, each with the machine right
after the call. -/
def calls? : List Call → Machine → Option (List (Call.Answer × Machine))
  | [], _ => some []
  | c :: rest, m => (m.call? c).bind fun a => (a.2.calls? rest).map (a :: ·)

/-- Two machines are alike and react to failures in the same way. -/
structure Twins (m n : Machine) : Prop extends Alike m n where
  /-- Both are strict, or both are lenient. -/
  strict : m.program.config.strict = n.program.config.strict

/-- Equal results, and twins left behind. -/
def SameResult {α : Type} (a b : α × Machine) : Prop := a.1 = b.1 ∧ Twins a.2 b.2

namespace Twins

variable {m n : Machine}

theorem step (h : Twins m n) : SameResult m.step n.step := by
  obtain ⟨hresult, hnext⟩ := Alike.step h.toLockstep
  refine ⟨hresult, hnext, ?_⟩
  rw [program_step, program_step, h.strict]

/-- Tracing a failure leaves twins, whether or not the two trace it. -/
theorem traceFailure (h : Twins m n) (f : Failure) :
    Twins (m.traceFailure f) (n.traceFailure f) := by
  refine ⟨((Alike.traceFailure m f).trans h.toLockstep).trans (Alike.traceFailure n f).symm, ?_⟩
  rw [program_traceFailure, program_traceFailure, h.strict]

/-- Tracing the listing leaves twins, whether or not the two trace it. -/
theorem traceListing (h : Twins m n) : Twins m.traceListing n.traceListing := by
  refine ⟨((Alike.traceListing m).trans h.toLockstep).trans (Alike.traceListing n).symm, ?_⟩
  rw [program_traceListing, program_traceListing, h.strict]

/-- Twins that go on from the same report both come to an end within a limit, with the same
result, or both do not. -/
theorem runFrom? (h : Twins m n) (limit : ℕ) (r : Report) :
    Option.Rel SameResult (runFrom? limit r m) (runFrom? limit r n) := by
  induction limit generalizing r m n with
  | zero =>
    cases hh : n.isHalted with
    | true =>
      rw [runFrom?_of_halted hh, runFrom?_of_halted (h.isHalted_eq.trans hh)]
      exact .some ⟨rfl, h⟩
    | false =>
      rw [runFrom?_zero_of_running hh, runFrom?_zero_of_running (h.isHalted_eq.trans hh)]
      exact .none
  | succ limit ih =>
    cases hh : n.isHalted with
    | true =>
      rw [runFrom?_of_halted hh, runFrom?_of_halted (h.isHalted_eq.trans hh)]
      exact .some ⟨rfl, h⟩
    | false =>
      have hhm := h.isHalted_eq.trans hh
      obtain ⟨hresult, hnext⟩ := h.step
      cases hs : n.step.1 with
      | ok u =>
        rw [runFrom?_succ_of_ok hh hs, runFrom?_succ_of_ok hhm (hresult.trans hs)]
        exact ih hnext _
      | error f =>
        cases hc : n.program.config.strict with
        | true =>
          rw [runFrom?_succ_of_strict hh hs hc,
            runFrom?_succ_of_strict hhm (hresult.trans hs) (h.strict.trans hc)]
          exact .some ⟨rfl, hnext⟩
        | false =>
          rw [runFrom?_succ_of_lenient hh hs hc,
            runFrom?_succ_of_lenient hhm (hresult.trans hs) (h.strict.trans hc)]
          exact ih (hnext.traceFailure f) _

/-- Twins answer a call in the same way. -/
theorem call? (h : Twins m n) (c : Call) : Option.Rel SameResult (m.call? c) (n.call? c) := by
  cases c with
  | step =>
    obtain ⟨hresult, hnext⟩ := h.step
    exact .some ⟨congrArg Call.Answer.stepped hresult, hnext⟩
  | run limit =>
    refine rel_map (h.traceListing.runFrom? limit {}) ?_
    rintro a b ⟨hresult, hnext⟩
    exact ⟨congrArg Call.Answer.ran hresult, hnext⟩

/-- Twins answer calls in the same way, one after the other. -/
theorem calls? (h : Twins m n) (calls : List Call) :
    Option.Rel (List.Forall₂ SameResult) (m.calls? calls) (n.calls? calls) := by
  induction calls generalizing m n with
  | nil => exact .some .nil
  | cons c calls ih =>
    refine rel_bind (h.call? c) ?_
    intro a b hfirst
    refine rel_map (ih hfirst.2) ?_
    intro later later' hlater
    exact .cons hfirst hlater

end Twins

/-- A machine that does not debug, one that debugs and one that debugs to a broken trace go
through the same counters, stacks, inputs and outputs under every sequence of calls, and every
call returns the same. -/
theorem debugging_only_observes (instructions : List Instruction) (strict : Bool) (input : Input)
    (sink : Sink) (calls : List Call) :
    let silent := (Program.ofList instructions ⟨strict, false⟩).machine input sink
    let traced := (Program.ofList instructions ⟨strict, true⟩).machine input sink
    let broken := { traced with trace := { broken := true } }
    Option.Rel (List.Forall₂ SameResult) (silent.calls? calls) (traced.calls? calls) ∧
    Option.Rel (List.Forall₂ SameResult) (silent.calls? calls) (broken.calls? calls) := by
  intro silent traced broken
  have htraced : Twins silent traced := ⟨⟨rfl, rfl, rfl, rfl, rfl⟩, rfl⟩
  have hbroken : Twins silent broken := ⟨⟨rfl, rfl, rfl, rfl, rfl⟩, rfl⟩
  exact ⟨htraced.calls? calls, hbroken.calls? calls⟩

/-- A step and a run of a program that debugs. -/
example : ((Program.machine ⟨#[.ofVisit ⟨2, 1⟩ 65, .ofVisit ⟨1, 4⟩ 8], ⟨false, true⟩, by decide⟩
    {} {}).calls? [.step, .run 1]).map (·.map Prod.fst) =
      some [.stepped (.ok ()), .ran (.ok ⟨1, 0⟩)] := by decide

end Machine

end GridWalk
