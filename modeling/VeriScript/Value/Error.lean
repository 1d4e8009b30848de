import VeriScript.Proof.Basic
import VeriScript.Span
import VeriScript.Ty.Basic

/-!
# Errors of running scripts

The errors of evaluation (`VSLRuntimeError`) and their messages.  A message is made when the error is raised:
`RuntimeFault.textFault?` is what keeps it from being written, and then there is no error of the script.
-/

namespace VeriScript

/-- What a value looks like to a tuple pattern. -/
inductive Shape where
  | tuple (size : Nat)
  | other (tag : String)
  deriving Repr

def Shape.text : Shape → String
  | .tuple size => "a tuple of size " ++ Text.decimalNat size
  | .other tag => "a value of type " ++ tag

inductive RuntimeFault where
  | notFunction (shown : Except Text.Fault String)
  | notAction (shown : Except Text.Fault String)
  | wrongContext (wanted actual : ContextKind)
  | unknownVariable (name : String)
  | notCondition (tag : String)
  | notRecursiveFunction
  | recursivePattern
  | emptyBlock
  | blockImport
  | stackOverflow
  | patternMismatch (size : Nat) (shape : Shape)
  | indexArray (tag : String)
  | indexInt (tag : String)
  | indexRange (index : Int) (length : Nat)
  | lookupRecord (field tag : String)
  | lookupField (field : String)
  | projTuple (tag : String)
  | projRange (index size : Nat)
  | incomparable
  /-- An argument of the wrong kind; `param` names the argument. -/
  | argument (fn param expected actual : String)
  | arity (fn : String) (expected actual : Nat)
  | operands (verb left right : String)
  | byZero (verb : String)
  | emptyList (fn : String)
  | unsupported (fn : String) (n : Int)
  | noFailure
  | termTypeOf (fn : String) (expected actual : TermType)
  | notBit (fn : String) (actual : TermType)
  | noGoal (tactic : String)
  | notTrivial (goal : String)
  | unsolved (goal : String)
  | invalidGoal (cex : Counterexample)
  | specFailed (name : String) (cex : Counterexample)
  | unreadableImport (path reason : String)
  | unwritableSummary (path reason : String)
  | unwritableExport (path reason : String)
  /-- A text cannot be written, or a type lacks a parameter that is looked at. -/
  | unwritable (fault : Text.Fault)
  deriving Repr

def RuntimeFault.message : RuntimeFault → String
  | .notFunction shown => "interpret Application: " ++ shown.toOption.getD ""
  | .notAction shown => "expected a monadic action, got " ++ shown.toOption.getD ""
  | .wrongContext wanted actual =>
    "cannot run a " ++ wanted.name ++ " action in the " ++ actual.name ++ " context"
  | .unknownVariable name => "unknown variable: " ++ name
  | .notCondition tag => "if: expected a Bool condition, got " ++ tag
  | .notRecursiveFunction => "interpret_function: not a function"
  | .recursivePattern => "recursive declarations must bind a single name"
  | .emptyBlock => "empty block"
  | .blockImport => "block import unimplemented"
  | .stackOverflow => "stack overflow: recursion too deep"
  | .patternMismatch size shape =>
    "pattern mismatch: expected a tuple of size " ++ Text.decimalNat size ++ ", got " ++ shape.text
  | .indexArray tag => "index: expected an array, got " ++ tag
  | .indexInt tag => "index: expected an Int index, got " ++ tag
  | .indexRange index length =>
    "index: " ++ Text.decimal index ++ " out of bounds for array of length " ++ Text.decimalNat length
  | .lookupRecord field tag => "lookup: expected a record for field " ++ field ++ ", got " ++ tag
  | .lookupField field => "lookup: record has no field " ++ field
  | .projTuple tag => "tuple lookup: expected a tuple, got " ++ tag
  | .projRange index size =>
    "tuple lookup: index " ++ Text.decimalNat index ++ " out of range for tuple of size " ++
      Text.decimalNat size
  | .incomparable => "eq: cannot compare functions or actions"
  | .argument fn param expected actual =>
    fn ++ " requires " ++ expected ++ " for " ++ param ++ ", got " ++ actual
  | .arity fn expected actual =>
    fn ++ " requires " ++ Text.decimalNat expected ++ " arguments, got " ++ Text.decimalNat actual
  | .operands verb left right => "Cannot " ++ verb ++ " " ++ left ++ " and " ++ right
  | .byZero verb => "Cannot " ++ verb ++ " by zero"
  | .emptyList fn => fn ++ ": empty list"
  | .unsupported fn n => fn ++ ": unsupported value " ++ Text.decimal n
  | .noFailure => "Expected failure, but succeeded"
  | .termTypeOf fn expected actual =>
    fn ++ ": expected a term of type " ++ expected.name ++ ", got " ++ actual.name
  | .notBit fn actual => fn ++ ": expected a Bit term, got " ++ actual.name
  | .noGoal tactic => tactic ++ ": no goal remains to prove"
  | .notTrivial goal => "trivial: goal is not trivially true: " ++ goal
  | .unsolved goal => "proof script ended with an unsolved goal: " ++ goal
  | .invalidGoal cex => "prove: goal is invalid, counterexample: " ++ cex.text
  | .specFailed name cex => "verify_spec: " ++ name ++ " failed, counterexample: " ++ cex.text
  | .unreadableImport path reason => "import: cannot read " ++ path ++ ": " ++ reason
  | .unwritableSummary path reason => "cannot write summary file " ++ path ++ ": " ++ reason
  | .unwritableExport path reason => "write_coq_term: cannot write " ++ path ++ ": " ++ reason
  | .unwritable fault => fault.message

/-- The integers in a message that a script can make as long as it likes. -/
def RuntimeFault.numerals : RuntimeFault → List Int
  | .indexRange index _ => [index]
  | .projRange index _ => [index]
  | .unsupported _ n => [n]
  | _ => []

/-- What keeps a message from being written. -/
def RuntimeFault.textFault? : RuntimeFault → Option Text.Fault
  | .unwritable fault | .notFunction (.error fault) | .notAction (.error fault) => some fault
  | fault => if fault.numerals.all Text.hasDecimal then none else some .digits

/-- An error, the position it belongs to, and the functions it came through, the innermost first. -/
structure RuntimeError where
  fault : RuntimeFault
  span : Option Span
  calls : List String
  deriving Repr

namespace RuntimeError

/-- An error without a position. -/
def ofFault (fault : RuntimeFault) : RuntimeError := ⟨fault, none, []⟩

/-- Note that an error came through a function. -/
def through (e : RuntimeError) (name : String) : RuntimeError :=
  { e with calls := e.calls ++ [name] }

def message (e : RuntimeError) : String :=
  let text := match e.span with
    | some span => span.render ++ ": " ++ e.fault.message
    | none => e.fault.message
  text ++ String.join (e.calls.map ("\n  in " ++ ·))

end RuntimeError

end VeriScript
