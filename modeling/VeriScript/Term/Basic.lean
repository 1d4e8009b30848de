import VeriScript.Text.Numeral

/-!
# Terms

The language of inline terms: integers and bits with arithmetic, comparisons and connectives.

* `Scalar` — the values of terms.  A bit counts as zero or one where a number is wanted, and a number as the
  bit of not being zero where a bit is wanted.
* `Term` — typed terms over free variables.
* `Term.vars`, `Term.size` (`term_vars`, `term_size`) — the free variables in order of occurrence, and the number of
  nodes.
-/

namespace VeriScript

inductive TermType where
  | integer
  | bit
  deriving DecidableEq, Repr

namespace TermType

def name : TermType → String
  | .integer => "Integer"
  | .bit => "Bit"

def ofName? (name : String) : Option TermType :=
  if name = "Integer" then some .integer else if name = "Bit" then some .bit else none

end TermType

inductive Scalar where
  | int (n : Int)
  | bit (b : Bool)
  deriving DecidableEq, Repr

namespace Scalar

/-- A scalar as a number. -/
def toInt : Scalar → Int
  | .int n => n
  | .bit b => if b then 1 else 0

/-- A scalar as a condition. -/
def isTrue : Scalar → Bool
  | .int n => n ≠ 0
  | .bit b => b

def type : Scalar → TermType
  | .int _ => .integer
  | .bit _ => .bit

def text : Scalar → String
  | .int n => Text.decimal n
  | .bit b => if b then "True" else "False"

end Scalar

inductive UnaryTermOp where
  | not
  | neg
  deriving DecidableEq, Repr

namespace UnaryTermOp

def text : UnaryTermOp → String
  | .not => "!"
  | .neg => "-"

/-- The type of the operand, which is also the type of the result. -/
def operandType : UnaryTermOp → TermType
  | .not => .bit
  | .neg => .integer

end UnaryTermOp

inductive BinaryTermOp where
  | add | sub | mul | div | mod
  | lt | le | gt | ge
  | eq | ne
  | and | or | imp
  deriving DecidableEq, Repr

namespace BinaryTermOp

def text : BinaryTermOp → String
  | .add => "+"
  | .sub => "-"
  | .mul => "*"
  | .div => "/"
  | .mod => "%"
  | .lt => "<"
  | .le => "<="
  | .gt => ">"
  | .ge => ">="
  | .eq => "=="
  | .ne => "!="
  | .and => "&&"
  | .or => "||"
  | .imp => "==>"

/-- How tightly an operator binds; the largest number binds most tightly. -/
def precedence : BinaryTermOp → Nat
  | .imp => 1
  | .or => 2
  | .and => 3
  | .eq | .ne | .lt | .le | .gt | .ge => 4
  | .add | .sub => 5
  | .mul | .div | .mod => 6

/-- The type of both operands; a test of equality takes either. -/
def operandType? : BinaryTermOp → Option TermType
  | .eq | .ne => none
  | .and | .or | .imp => some .bit
  | _ => some .integer

def resultType : BinaryTermOp → TermType
  | .add | .sub | .mul | .div | .mod => .integer
  | _ => .bit

/-- All operators. -/
def all : List BinaryTermOp :=
  [.add, .sub, .mul, .div, .mod, .lt, .le, .gt, .ge, .eq, .ne, .and, .or, .imp]

end BinaryTermOp

inductive Term where
  | const (type : TermType) (value : Scalar)
  | var (type : TermType) (name : String)
  | unary (type : TermType) (op : UnaryTermOp) (arg : Term)
  | binary (type : TermType) (op : BinaryTermOp) (left right : Term)
  | ite (test yes no : Term)
  deriving DecidableEq, Repr

namespace Term

/-- The type of a term; a conditional has the type of its first branch. -/
def type : Term → TermType
  | .const t _ | .var t _ | .unary t _ _ | .binary t _ _ _ => t
  | .ite _ yes _ => yes.type

/-- The integer constant `n`. -/
abbrev ofInt (n : Int) : Term := .const .integer (.int n)

/-- The constant of a truth value. -/
abbrev ofBool (b : Bool) : Term := .const .bit (.bit b)

/-- All occurrences of variables, from left to right. -/
def varOccurrences : Term → List (String × TermType)
  | .const _ _ => []
  | .var t name => [(name, t)]
  | .unary _ _ arg => arg.varOccurrences
  | .binary _ _ left right => left.varOccurrences ++ right.varOccurrences
  | .ite test yes no => test.varOccurrences ++ yes.varOccurrences ++ no.varOccurrences

/-- The free variables with their types, in order of first occurrence. -/
def vars (t : Term) : List (String × TermType) :=
  t.varOccurrences.eraseDups

/-- The number of nodes. -/
def size : Term → Nat
  | .const _ _ | .var _ _ => 1
  | .unary _ _ arg => 1 + arg.size
  | .binary _ _ left right => 1 + left.size + right.size
  | .ite test yes no => 1 + test.size + yes.size + no.size

end Term

/-- The terms that names stand for; the newest entry of a name is its only one. -/
abbrev TermEnv := List (String × Term)

end VeriScript
