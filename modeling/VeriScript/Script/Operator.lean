import VeriScript.Script.Basic

/-!
# Infix operators of scripts

Operators are shorthand (`_desugar_binary`): an arithmetical operator or a comparison applies the primitive of its name
to the operands, `&&` and `||` are conditionals, so that their right operand is evaluated only if it decides.
-/

namespace VeriScript

inductive BinaryOp where
  | mul | div | mod
  | add | sub
  | eq | ne | le | ge | lt | gt
  | and
  | or
  deriving DecidableEq, Repr

namespace BinaryOp

/-- How tightly an operator binds; the smallest number binds most tightly. -/
def level : BinaryOp → Nat
  | .mul | .div | .mod => 0
  | .add | .sub => 1
  | .eq | .ne | .le | .ge | .lt | .gt => 2
  | .and => 3
  | .or => 4

/-- What an operator between two expressions is short for; `span` is the position of the operator. -/
def expr (op : BinaryOp) (span : Span) (left right : Expr) : Expr :=
  let call (primitive : String) : Expr := .app span (.app span (.var span primitive) left) right
  match op with
  | .mul => call "int_mul"
  | .div => call "int_div"
  | .mod => call "int_mod"
  | .add => call "int_add"
  | .sub => call "int_sub"
  | .eq => call "eq"
  | .ne => call "neq"
  | .lt => call "int_lt"
  | .le => call "int_le"
  | .gt => call "int_gt"
  | .ge => call "int_ge"
  | .and => .ite span left right (.bool span false)
  | .or => .ite span left (.bool span true) right

/-- A chain of operators of one level, grouped to the left; the whole chain has the position of its first
operator. -/
def chain (first : Expr) : List ((BinaryOp × Span) × Expr) → Expr
  | [] => first
  | ((op, span), e) :: rest =>
    rest.foldl (fun left next => next.1.1.expr span left next.2) (op.expr span first e)

end BinaryOp

end VeriScript
