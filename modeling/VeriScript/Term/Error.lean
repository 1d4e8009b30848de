import VeriScript.Span
import VeriScript.Term.Basic

/-!
# Errors in terms (`VSLTermError`)
-/

namespace VeriScript

inductive TermFault where
  /-- The text goes on where it should have ended. -/
  | leftover (line col : Nat)
  | badText
  | unknownType (name : String)
  | unboundName (name : String)
  | ifCondition (got : TermType)
  | ifBranches (yes no : TermType)
  | unaryOperand (op : UnaryTermOp) (got : TermType)
  | compared (op : BinaryTermOp) (left right : TermType)
  | binaryOperands (op : BinaryTermOp) (expected left right : TermType)
  | divisionByZero
  | noValue (name : String)
  deriving DecidableEq, Repr

def TermFault.message : TermFault → String
  | .leftover line col =>
    "term syntax error: Expected end of text (line " ++ Text.decimalNat line ++ ", column " ++
      Text.decimalNat col ++ " of the term)"
  | .badText => "term syntax error"
  | .unknownType name => "unknown term type: " ++ name
  | .unboundName name => "unbound name in term: " ++ name
  | .ifCondition got => "term type error: if condition must be Bit, got " ++ got.name
  | .ifBranches yes no => "term type error: if branches differ: " ++ yes.name ++ " and " ++ no.name
  | .unaryOperand op got =>
    "term type error: operator " ++ op.text ++ " expects " ++ op.operandType.name ++ ", got " ++ got.name
  | .compared op left right =>
    "term type error: operator " ++ op.text ++ " compares " ++ left.name ++ " with " ++ right.name
  | .binaryOperands op expected left right =>
    "term type error: operator " ++ op.text ++ " expects " ++ expected.name ++ " operands, got " ++
      left.name ++ " and " ++ right.name
  | .divisionByZero => "division by zero in term"
  | .noValue name => "no value for symbolic variable " ++ name

structure TermError where
  fault : TermFault
  span : Option Span
  deriving Repr

def TermError.message (e : TermError) : String :=
  match e.span with
  | some span => span.render ++ ": " ++ e.fault.message
  | none => e.fault.message

end VeriScript
