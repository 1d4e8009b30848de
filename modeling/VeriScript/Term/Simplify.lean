import VeriScript.Term.Eval

/-!
# Simplification

`Term.simplify` (`simplify`) computes what consists of constants and applies the laws of true and false; a division by
the constant zero stays as it is.
-/

namespace VeriScript.Term

/-- An operator between simplified operands. -/
def simplifyUnary (type : TermType) (op : UnaryTermOp) : Term → Term
  | .const _ a => .const type (op.apply a)
  | arg => .unary type op arg

/-- The term is the constant of a truth value. -/
def isBit (b : Bool) : Term → Bool
  | .const _ (.bit c) => c == b
  | _ => false

/-- The laws of true and false for an operator between two terms. -/
def simplifyLogic (type : TermType) (op : BinaryTermOp) (left right : Term) : Term :=
  match op with
  | .and =>
    if left.isBit true then right
    else if right.isBit true then left
    else if left.isBit false || right.isBit false then .ofBool false
    else .binary type op left right
  | .or =>
    if left.isBit false then right
    else if right.isBit false then left
    else if left.isBit true || right.isBit true then .ofBool true
    else .binary type op left right
  | .imp =>
    if left.isBit true then right
    else if left.isBit false || right.isBit true then .ofBool true
    else .binary type op left right
  | op => .binary type op left right

@[inherit_doc simplifyUnary]
def simplifyBinary (type : TermType) (op : BinaryTermOp) (left right : Term) : Term :=
  match left, right with
  | .const _ a, .const _ b =>
    match op.apply a b with
    | .ok value => .const type value
    | .error _ => simplifyLogic type op left right
  | left, right => simplifyLogic type op left right

/-- A conditional of simplified parts. -/
def simplifyIte (test yes no : Term) : Term :=
  match test with
  | .const _ value => if value.isTrue then yes else no
  | test => .ite test yes no

/-- The term with its constant parts computed. -/
def simplify : Term → Term
  | .const t value => .const t value
  | .var t name => .var t name
  | .unary t op arg => simplifyUnary t op arg.simplify
  | .binary t op left right => simplifyBinary t op left.simplify right.simplify
  | .ite test yes no => simplifyIte test.simplify yes.simplify no.simplify

end VeriScript.Term
