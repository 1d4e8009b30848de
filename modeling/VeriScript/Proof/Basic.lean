import VeriScript.Term.Basic

/-!
# Goals, specifications and records of proofs

* `Goal` — what a proof script works on (`make_goal_state`); a goal that is closed has a status.
* `Draft` — what a specification under construction consists of (`make_setup_state`).
* `Spec` — a specification with its status.
* `ProofRecord` — an entry in the history of proofs (`record_proof`).
-/

namespace VeriScript

inductive ProofStatus where
  | valid
  | admitted
  | tested
  | invalid
  | verified
  | assumed
  deriving DecidableEq, Repr

namespace ProofStatus

def name : ProofStatus → String
  | .valid => "valid"
  | .admitted => "admitted"
  | .tested => "tested"
  | .invalid => "invalid"
  | .verified => "verified"
  | .assumed => "assumed"

def all : List ProofStatus := [.valid, .admitted, .tested, .invalid, .verified, .assumed]

end ProofStatus

/-- The tactics that close a goal. -/
inductive Tactic where
  | trivial
  | concede
  | assumeValid
  | quickcheck
  deriving DecidableEq, Repr

def Tactic.name : Tactic → String
  | .trivial => "trivial"
  | .concede => "admit"
  | .assumeValid => "assume_valid"
  | .quickcheck => "quickcheck"

/-- Values of variables under which a goal fails. -/
abbrev Counterexample := List (String × Scalar)

/-- A counterexample in words. -/
def Counterexample.text (cex : Counterexample) : String :=
  String.intercalate ", " (cex.map fun e => e.1 ++ " = " ++ e.2.text)

structure Goal where
  term : Term
  status : Option ProofStatus
  tactic : Option Tactic
  counterexample : Counterexample
  deriving DecidableEq, Repr

namespace Goal

/-- A goal that no tactic has worked on. -/
def start (t : Term) : Goal := ⟨t, none, none, []⟩

/-- The goal with the status that a tactic gives it. -/
def close (g : Goal) (status : ProofStatus) (tactic : Tactic) (cex : Counterexample) : Goal :=
  { g with status := some status, tactic := some tactic, counterexample := cex }

end Goal

/-- The conditions of a specification. -/
structure Draft where
  vars : List Term
  pre : List Term
  post : List Term
  deriving DecidableEq, Repr

/-- No variables and no conditions. -/
def Draft.empty : Draft := ⟨[], [], []⟩

/-- Join a condition to those before it; a constant before it is given up. -/
def conjoin (acc next : Term) : Term :=
  match acc with
  | .const _ _ => next
  | acc => .binary .bit .and acc next

/-- The conditions joined, from left to right. -/
def conjunction (conditions : List Term) : Term :=
  conditions.foldl conjoin (.ofBool true)

/-- The preconditions imply the postconditions. -/
def Draft.goal (d : Draft) : Term :=
  .binary .bit .imp (conjunction d.pre) (conjunction d.post)

structure Spec where
  name : String
  draft : Draft
  status : ProofStatus
  deriving DecidableEq, Repr

inductive RecordKind where
  | goal
  | spec
  deriving DecidableEq, Repr

def RecordKind.name : RecordKind → String
  | .goal => "theorem"
  | .spec => "spec"

structure ProofRecord where
  kind : RecordKind
  name : String
  /-- The goal as text. -/
  goal : String
  status : ProofStatus
  tactic : Option Tactic
  deriving DecidableEq, Repr

end VeriScript
