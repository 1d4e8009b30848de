import VeriScript.Proof.Quickcheck
import VeriScript.Run.Statement
import VeriScript.Term.Simplify

/-!
# Proofs and specifications

The tactics work on the goal of the proof script at hand; the commands that prove something run a proof
script on a goal and enter the outcome in the history of the session.

* `openGoal`, `closeGoal` (`open_goal`, `close_goal`) — the goal at hand; a closed goal is out of reach of every tactic.
* `runProof`, `runSetup` (`run_proof`, `run_setup`) — run a proof script, or the setup of a specification.
* `prove`, `provePrint`, `verifySpec`, `assumeSpec` (`prove_impl`, …) — what is proved or assumed, and recorded.
-/

namespace VeriScript

/-! ## Tactics -/

/-- The goal at hand, which is not closed yet. -/
def openGoal (tactic : String) : Run Goal := do
  match (← get).work with
  | .proof goal =>
    if goal.status.isSome then Run.failAt (.noGoal tactic) none else return goal
  | work => Run.failAt (.wrongContext .proofScript work.kind) none

/-- Close the goal at hand. -/
def closeGoal (goal : Goal) (status : ProofStatus) (tactic : Tactic) (cex : Counterexample) : Run Value := do
  Run.setWork (.proof (goal.close status tactic cex))
  return .unit

/-- Close a goal that simplifies to true. -/
def proveTrivial : Run Value := do
  let goal ← openGoal "trivial"
  match goal.term.simplify with
  | .const _ (.bit true) => closeGoal goal .valid .trivial []
  | t => do Run.failAt (.notTrivial (← Run.write (t.shown .plain))) none

/-- Test the goal on assignments and close it as tested or invalid. -/
def quickcheck (ctx : Context) (count : Value) : Run Value := do
  let goal ← openGoal "quickcheck"
  let n ← Run.orFail (count.expectInt "quickcheck")
  let vars := goal.term.vars
  let draws ← Run.draw (randomTests n * vars.length)
  match ← Run.orTermError none (goal.term.firstFailure 0 (testAssignments draws vars n)) with
  | .inr assignment =>
    let cex := vars.filterMap fun v => (Table.get? assignment v.1).map fun value => (v.1, value)
    ctx.print .info ("----------Counterexample----------\n" ++ Counterexample.text cex)
    closeGoal goal .invalid .quickcheck cex
  | .inl tried =>
    ctx.print .warn
      ("WARNING: quickcheck passed " ++ Text.decimalNat tried ++ " tests, goal is not proved")
    closeGoal goal .tested .quickcheck []

/-! ## Proofs and specifications -/

/-- Run a proof script on a goal: the goal it leaves, which is closed. -/
def runProof (run : RunAction) (ctx : Context) (script : Value) (t : Term) : Run (Goal × ProofStatus) := do
  match ← Run.withWork (.proof (.start t)) (run ctx script) with
  | .proof goal =>
    match goal.status with
    | some status => return (goal, status)
    | none => Run.failAt (.unsolved (← Run.write (goal.term.shown .plain))) none
  | work => Run.failAt (.wrongContext .proofScript work.kind) none

/-- Run the setup of a specification. -/
def runSetup (run : RunAction) (ctx : Context) (setup : Value) : Run Draft := do
  match ← Run.withWork (.setup .empty) (run ctx setup) with
  | .setup draft => return draft
  | work => Run.failAt (.wrongContext .setup work.kind) none

/-- Enter a goal that was proved in the history. -/
def recordGoal (t : Term) (goal : Goal) (status : ProofStatus) : Run Unit := do
  let text ← Run.write (t.shown .plain)
  let s ← Run.session
  Run.setSession (s.record ⟨.goal, s.nextGoalName, text, status, goal.tactic⟩)

/-- Enter a specification in the history. -/
def recordSpec (spec : Spec) (tactic : Option Tactic) : Run Unit := do
  let text ← Run.write (spec.draft.goal.shown .plain)
  let s ← Run.session
  Run.setSession (s.record ⟨.spec, spec.name, text, spec.status, tactic⟩)

/-- Prove a goal and give the outcome. -/
def prove (run : RunAction) (ctx : Context) (script goal : Value) : Run Value := do
  let t ← Run.orFail (goal.expectBit "prove")
  let (closed, status) ← runProof run ctx script t
  recordGoal t closed status
  return .proofResult (status ≠ .invalid) closed.counterexample

/-- Prove a goal and give the theorem. -/
def provePrint (run : RunAction) (ctx : Context) (script goal : Value) : Run Value := do
  let t ← Run.orFail (goal.expectBit "prove_print")
  let (closed, status) ← runProof run ctx script t
  if status = .invalid then Run.failAt (.invalidGoal closed.counterexample) none
  recordGoal t closed status
  return .proved t status

/-- Prove that a specification holds. -/
def verifySpec (run : RunAction) (ctx : Context) (name setup script : Value) : Run Value := do
  let name ← Run.orFail (name.expectString "verify_spec")
  let draft ← runSetup run ctx setup
  let (closed, status) ← runProof run ctx script draft.goal
  if status = .invalid then Run.failAt (.specFailed name closed.counterexample) none
  let spec : Spec := ⟨name, draft, if status = .valid then .verified else status⟩
  recordSpec spec closed.tactic
  ctx.print .info ("Proof succeeded! " ++ name)
  return .spec spec

/-- Record a specification without proof. -/
def assumeSpec (run : RunAction) (ctx : Context) (name setup : Value) : Run Value := do
  let name ← Run.orFail (name.expectString "unsafe_assume_spec")
  let draft ← runSetup run ctx setup
  let spec : Spec := ⟨name, draft, .assumed⟩
  recordSpec spec none
  ctx.print .warn ("WARNING: assuming specification " ++ name ++ " without proof")
  return .spec spec

/-- Change the specification under construction. -/
def changeDraft (change : Draft → Draft) : Run Unit := do
  match (← get).work with
  | .setup draft => Run.setWork (.setup (change draft))
  | work => Run.failAt (.wrongContext .setup work.kind) none

end VeriScript
