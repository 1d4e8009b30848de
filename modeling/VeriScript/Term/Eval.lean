import VeriScript.Table
import VeriScript.Term.Error

/-!
# The meaning of terms

`Term.eval` (`evaluate_term`) is the value of a term under an assignment of scalars to its variables.  Division rounds
down and the remainder has the sign of the divisor; both fail on a divisor of zero, and a variable without a value
fails.
-/

namespace VeriScript

/-- Values of variables. -/
abbrev Assignment := List (String × Scalar)

def UnaryTermOp.apply : UnaryTermOp → Scalar → Scalar
  | .not, a => .bit (!a.isTrue)
  | .neg, a => .int (-a.toInt)

/-- The connectives give one of their operands: the one that decides. -/
def BinaryTermOp.apply (op : BinaryTermOp) (a b : Scalar) : Except TermFault Scalar :=
  match op with
  | .add => .ok (.int (a.toInt + b.toInt))
  | .sub => .ok (.int (a.toInt - b.toInt))
  | .mul => .ok (.int (a.toInt * b.toInt))
  | .div => if b.toInt = 0 then .error .divisionByZero else .ok (.int (a.toInt.fdiv b.toInt))
  | .mod => if b.toInt = 0 then .error .divisionByZero else .ok (.int (a.toInt.fmod b.toInt))
  | .eq => .ok (.bit (a.toInt = b.toInt))
  | .ne => .ok (.bit (a.toInt ≠ b.toInt))
  | .lt => .ok (.bit (a.toInt < b.toInt))
  | .le => .ok (.bit (a.toInt ≤ b.toInt))
  | .gt => .ok (.bit (a.toInt > b.toInt))
  | .ge => .ok (.bit (a.toInt ≥ b.toInt))
  | .and => .ok (if a.isTrue then b else a)
  | .or => .ok (if a.isTrue then a else b)
  | .imp => .ok (if a.isTrue then b else .bit true)

/-- The value of a term.  Both operands of an operator are evaluated, the left one first; of a conditional
only the branch that the test picks. -/
def Term.eval (assignment : Assignment) : Term → Except TermFault Scalar
  | .const _ value => .ok value
  | .var _ name =>
    match Table.get? assignment name with
    | some value => .ok value
    | none => .error (.noValue name)
  | .unary _ op arg => do return op.apply (← arg.eval assignment)
  | .binary _ op left right => do
    let a ← left.eval assignment
    let b ← right.eval assignment
    op.apply a b
  | .ite test yes no => do
    if (← test.eval assignment).isTrue then yes.eval assignment else no.eval assignment

end VeriScript
