import VeriScript.Span
import VeriScript.Ty.Printer

/-!
# Type errors

The errors of the checker (`VSLTypeError`) and their messages.  A message that names a type is made when the error is
raised: `TypeFault.raised` is what is raised then, which is no error of the script if the message cannot be written.
-/

namespace VeriScript

/-- Why a script has no type. -/
inductive TypeFault where
  | mismatch (expected actual : Ty)
  | infiniteType (t : Ty)
  | unboundVariable (name : String)
  | unboundType (name : String)
  | aliasParameters (name : String)
  | duplicateField (name : String)
  | noField (record : Ty) (field : String)
  | unknownRecord (field : String)
  | notRecord (field : String) (t : Ty)
  | tupleRange (index : Nat) (tuple : Ty)
  | unknownTuple (index : Nat)
  | notTuple (index : Nat) (t : Ty)
  | emptyBlock
  | lastStatement
  | recursivePattern
  | notMonomorphic (s : Schema)
  /-- A text cannot be written, or a type lacks a parameter that is looked at. -/
  | unwritable (fault : Text.Fault)
  deriving Repr

def TypeFault.message : TypeFault → String
  | .mismatch expected actual =>
    "type mismatch: expected " ++ expected.render ++ " but got " ++ actual.render
  | .infiniteType t => "occurs check: cannot construct infinite type " ++ t.render
  | .unboundVariable name => "unbound variable: " ++ name
  | .unboundType name => "unbound type name: " ++ name
  | .aliasParameters name => "type alias " ++ name ++ " takes no parameters"
  | .duplicateField name => "duplicate record field: " ++ name
  | .noField record field => "record " ++ record.render ++ " has no field " ++ field
  | .unknownRecord field => "cannot infer the record type for field lookup ." ++ field
  | .notRecord field t => "field lookup ." ++ field ++ " on non-record type " ++ t.render
  | .tupleRange index t => "tuple index " ++ Text.decimalNat index ++ " out of range for " ++ t.render
  | .unknownTuple index => "cannot infer the tuple type for projection ." ++ Text.decimalNat index
  | .notTuple index t => "tuple projection ." ++ Text.decimalNat index ++ " on non-tuple type " ++ t.render
  | .emptyBlock => "empty block"
  | .lastStatement => "the last statement in a do block must be an expression"
  | .recursivePattern => "recursive declarations must bind a single name"
  | .notMonomorphic s => "Not a monomorphic type: " ++ s.render
  | .unwritable fault => fault.message

/-- What keeps a number from being written. -/
def numberFault? (n : Nat) : Option Text.Fault :=
  if Text.hasDecimal n then none else some .digits

/-- What keeps a message from being written, at its first place. -/
def TypeFault.textFault? : TypeFault → Option Text.Fault
  | .mismatch expected actual => expected.fault?.or actual.fault?
  | .infiniteType t | .noField t _ | .notRecord _ t => t.fault?
  | .tupleRange index t | .notTuple index t => (numberFault? index).or t.fault?
  | .unknownTuple index => numberFault? index
  | .notMonomorphic s => s.type.fault?
  | .unwritable fault => some fault
  | .unboundVariable _ | .unboundType _ | .aliasParameters _ | .duplicateField _ | .unknownRecord _ | .emptyBlock
  | .lastStatement | .recursivePattern => none

/-- What is raised for a fault: without its message there is no type error. -/
def TypeFault.raised (fault : TypeFault) : TypeFault :=
  match fault.textFault? with
  | some f => .unwritable f
  | none => fault

structure TypeError where
  fault : TypeFault
  span : Option Span
  deriving Repr

def TypeError.message (e : TypeError) : String :=
  match e.span with
  | some span => "Type error at " ++ span.render ++ ": " ++ e.fault.message
  | none => "Type error: " ++ e.fault.message

end VeriScript
