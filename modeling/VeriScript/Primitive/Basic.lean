import VeriScript.Ty.Basic

/-!
# Primitives

The operations that scripts are built from.

* `Op` — functions: they take values and give a value.
* `Command` — commands: with their arguments they are actions, which do something when they are run.
* `Lifecycle` — how a primitive is made available.
-/

namespace VeriScript

inductive Lifecycle where
  | current
  | deprecated
  | experimental
  deriving DecidableEq, Repr

namespace Lifecycle

def name : Lifecycle → String
  | .current => "Current"
  | .deprecated => "Deprecated"
  | .experimental => "Experimental"

def all : List Lifecycle := [.current, .deprecated, .experimental]

end Lifecycle

/-- Integer arithmetic. -/
inductive ArithOp where
  | add | sub | mul | div | mod
  deriving DecidableEq, Repr

namespace ArithOp

def name : ArithOp → String
  | .add => "int_add"
  | .sub => "int_sub"
  | .mul => "int_mul"
  | .div => "int_div"
  | .mod => "int_mod"

/-- What an operation does, for messages. -/
def verb : ArithOp → String
  | .add => "add"
  | .sub => "subtract"
  | .mul => "multiply"
  | .div => "divide"
  | .mod => "take modulus"

end ArithOp

/-- Comparison of integers. -/
inductive OrderOp where
  | lt | le | gt | ge
  deriving DecidableEq, Repr

def OrderOp.name : OrderOp → String
  | .lt => "int_lt"
  | .le => "int_le"
  | .gt => "int_gt"
  | .ge => "int_ge"

inductive Op where
  | yield
  | forEach
  | null
  | nth
  | head
  | tail
  | concat
  | length
  | strConcat
  | arith (op : ArithOp)
  | order (op : OrderOp)
  | eq
  | neq
  | not
  | showValue
  | evalInt
  | evalBool
  | showTerm
  | termType
  | termSize
  /-- Put the arguments into an array: no primitive, but a function that a host may register (`make_builtin`). -/
  | gather (name : String) (arity : Nat)
  deriving DecidableEq, Repr

namespace Op

def name : Op → String
  | .yield => "return"
  | .forEach => "for"
  | .null => "null"
  | .nth => "nth"
  | .head => "head"
  | .tail => "tail"
  | .concat => "concat"
  | .length => "length"
  | .strConcat => "str_concat"
  | .arith op => op.name
  | .order op => op.name
  | .eq => "eq"
  | .neq => "neq"
  | .not => "not"
  | .showValue => "show"
  | .evalInt => "eval_int"
  | .evalBool => "eval_bool"
  | .showTerm => "show_term"
  | .termType => "type"
  | .termSize => "term_size"
  | .gather name _ => name

/-- The number of arguments. -/
def arity : Op → Nat
  | .forEach | .nth | .concat | .strConcat | .arith _ | .order _ | .eq | .neq => 2
  | .gather _ n => n
  | _ => 1

end Op

inductive Command where
  | print
  | env
  | help
  | includeFile
  | enable (life : Lifecycle)
  | setAscii
  | setBase
  | setColor
  | fails
  | time
  | exit
  | dumpFile
  | freshSymbolic
  | printTerm
  | printType
  | define
  | prove
  | provePrint
  | verifySpec
  | assumeSpec
  | summarize
  | writeCoq
  | trivial
  /-- Accept the goal without proof, for a reason. -/
  | concede
  | assumeValid
  | goalEval
  | printGoal
  | quickcheck
  | specVar
  | specPre
  | specPost
  deriving DecidableEq, Repr

namespace Command

def name : Command → String
  | .print => "print"
  | .env => "env"
  | .help => "help"
  | .includeFile => "include"
  | .enable .current => "enable_current"
  | .enable .deprecated => "enable_deprecated"
  | .enable .experimental => "enable_experimental"
  | .setAscii => "set_ascii"
  | .setBase => "set_base"
  | .setColor => "set_color"
  | .fails => "fails"
  | .time => "time"
  | .exit => "exit"
  | .dumpFile => "dump_file_AST"
  | .freshSymbolic => "fresh_symbolic"
  | .printTerm => "print_term"
  | .printType => "print_type"
  | .define => "define"
  | .prove => "prove"
  | .provePrint => "prove_print"
  | .verifySpec => "verify_spec"
  | .assumeSpec => "unsafe_assume_spec"
  | .summarize => "summarize_verification"
  | .writeCoq => "write_coq_term"
  | .trivial => "trivial"
  | .concede => "admit"
  | .assumeValid => "assume_valid"
  | .goalEval => "goal_eval"
  | .printGoal => "print_goal"
  | .quickcheck => "quickcheck"
  | .specVar => "spec_fresh_var"
  | .specPre => "spec_precond"
  | .specPost => "spec_postcond"

/-- The number of arguments. -/
def arity : Command → Nat
  | .env | .enable _ | .summarize | .trivial | .assumeValid | .goalEval | .printGoal => 0
  | .freshSymbolic | .define | .prove | .provePrint | .assumeSpec | .specVar => 2
  | .verifySpec | .writeCoq => 3
  | _ => 1

/-- The kind of context that a command runs in. -/
def context : Command → ContextKind
  | .trivial | .concede | .assumeValid | .goalEval | .printGoal | .quickcheck => .proofScript
  | .specVar | .specPre | .specPost => .setup
  | _ => .topLevel

end Command

/-- A primitive that takes arguments. -/
inductive Primitive where
  | op (op : Op)
  | command (c : Command)
  deriving DecidableEq, Repr

namespace Primitive

def name : Primitive → String
  | .op o => o.name
  | .command c => c.name

def arity : Primitive → Nat
  | .op o => o.arity
  | .command c => c.arity

end Primitive

end VeriScript
