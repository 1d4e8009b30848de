import VeriScript.Primitive.Basic
import VeriScript.Proof.Basic
import VeriScript.Script.Basic

/-!
# Values

* `Value` — what expressions evaluate to.
* `Job` — what an action does when it is run.
* `Binding` — an entry of a local environment (`make_local_let`, whose documentation no script ever gives); the members
  of a recursive group are one entry, so that each of them is a function over the environment that starts with the
  group itself.
* `lookup` — the value of a name in a local environment (`lookup_local`).
-/

namespace VeriScript

/-- A function of a recursive group. -/
structure Member where
  name : String
  schema? : Option Schema
  param : Pattern
  body : Expr

mutual

inductive Value where
  | unit
  | bool (b : Bool)
  | int (n : Int)
  | string (s : String)
  | array (elems : List Value)
  /-- A tuple of at least one component. -/
  | tuple (elems : List Value)
  /-- A record, its fields in the order they were given. -/
  | record (fields : List (String × Value))
  /-- A function of a script, and the name it was last called by. -/
  | closure (param : Pattern) (env : List Binding) (body : Expr) (calledBy : Option String)
  /-- A primitive that still wants arguments, those it has, and the name it was last called by. -/
  | builtin (prim : Primitive) (args : List Value) (calledBy : Option String)
  | action (job : Job)
  | term (t : Term)
  | termType (t : TermType)
  | proved (prop : Term) (status : ProofStatus)
  | proofResult (valid : Bool) (counterexample : Counterexample)
  | spec (s : Spec)
  /-- A value of a kind that scripts know nothing about, which a host may register (`make_value`). -/
  | foreign (tag : String)

inductive Job where
  | block (env : List Binding) (body : List Stmt)
  | yield (v : Value)
  | forEach (items : List Value) (fn : Value)
  | command (c : Command) (args : List Value)
  /-- Give the name of the kind of context it runs in: an action that a host may register (`make_action`). -/
  | contextName (context : Option ContextKind)

inductive Binding where
  | value (name : String) (schema? : Option Schema) (v : Value)
  | typedef (name : String) (t : Ty)
  | recursive (members : List Member)

end

/-- A local environment, the newest entry first. -/
abbrev Env := List Binding

/-- The kind of context that a job has to run in; `none` if it runs in any. -/
def Job.context : Job → Option ContextKind
  | .command c _ => some c.context
  | .contextName context => context
  | _ => none

namespace Value

/-- The kind of a value. -/
def tag : Value → String
  | .unit => "Unit"
  | .bool _ => "Bool"
  | .int _ => "Int"
  | .string _ => "String"
  | .array _ => "Array"
  | .tuple _ => "Tuple"
  | .record _ => "Record"
  | .closure _ _ _ _ => "Closure"
  | .builtin _ _ _ => "Builtin"
  | .action _ => "Action"
  | .term _ => "Term"
  | .termType _ => "Type"
  | .proved _ _ => "Theorem"
  | .proofResult _ _ => "ProofResult"
  | .spec _ => "Spec"
  | .foreign tag => tag

/-- A tuple; without components it is the unit value. -/
def ofTuple : List Value → Value
  | [] => .unit
  | elems => .tuple elems

/-- The components of a tuple or of the unit value. -/
def components? : Value → Option (List Value)
  | .unit => some []
  | .tuple elems => some elems
  | _ => none

def isUnit : Value → Bool
  | .unit => true
  | _ => false

/-- A function that errors are to name. -/
def called (name : String) : Value → Value
  | .closure p env body _ => .closure p env body (some name)
  | .builtin prim args _ => .builtin prim args (some name)
  | v => v

/-- A command as a value: an action, or a function to one. -/
def ofCommand (c : Command) : Value :=
  if c.arity = 0 then .action (.command c []) else .builtin (.command c) [] none

end Value

/-! ## Local environments -/

/-- The member of a recursive group that a name means: the last one of the name. -/
def memberOf (members : List Member) (name : String) : Option Member :=
  members.reverse.find? (·.name == name)

/-- A member as a function; `env` starts with its group. -/
def Member.value (m : Member) (env : Env) : Value :=
  .closure m.param env m.body none

/-- The value of a name: its newest entry. -/
def Env.lookup : Env → String → Option Value
  | [], _ => none
  | .value n _ v :: env, name => if n = name then some v else lookup env name
  | .typedef _ _ :: env, name => lookup env name
  | .recursive members :: env, name =>
    match memberOf members name with
    | some m => some (m.value (.recursive members :: env))
    | none => lookup env name

end VeriScript
