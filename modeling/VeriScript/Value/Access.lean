import VeriScript.Value.Basic
import VeriScript.Value.Error

/-!
# Parts of values

Reading a part of a value fails if the value has the wrong kind or lacks the part.

* `index`, `field`, `proj` (`index_value`, `lookup_value`, `tuple_lookup_value`) — elements of arrays, fields of
  records, components of tuples.
* `expectArray`, `expectInt`, … — the content of an argument of a primitive.
-/

namespace VeriScript.Value

/-- The element of an array at a position from zero on. -/
def index (array i : Value) : Except RuntimeFault Value :=
  match array with
  | .array elems =>
    match i with
    | .int n =>
      match (if n < 0 then none else elems[n.toNat]?) with
      | some v => .ok v
      | none => .error (.indexRange n elems.length)
    | i => .error (.indexInt i.tag)
  | array => .error (.indexArray array.tag)

def field (record : Value) (name : String) : Except RuntimeFault Value :=
  match record with
  | .record fields =>
    match Table.get? fields name with
    | some v => .ok v
    | none => .error (.lookupField name)
  | v => .error (.lookupRecord name v.tag)

/-- A component of a tuple; the unit value is no tuple here. -/
def proj (tuple : Value) (i : Nat) : Except RuntimeFault Value :=
  match tuple with
  | .tuple elems =>
    match elems[i]? with
    | some v => .ok v
    | none => .error (.projRange i elems.length)
  | v => .error (.projTuple v.tag)

/-! ## Arguments of primitives -/

/-- An argument of the expected kind. -/
def expect (fn param expected : String) (v : Value) : Except RuntimeFault Unit :=
  if v.tag = expected then .ok () else .error (.argument fn param expected v.tag)

/-- Arguments are numbered from one on. -/
def expectAllFrom (fn : String) : Nat → List (Value × String) → Except RuntimeFault Unit
  | _, [] => .ok ()
  | n, (v, expected) :: rest => do
    expect fn ("argument " ++ Text.decimalNat n) expected v
    expectAllFrom fn (n + 1) rest

/-- As many arguments as expected, each of the expected kind. -/
def expectAll (fn : String) (args : List Value) (expected : List String) : Except RuntimeFault Unit :=
  if args.length = expected.length then expectAllFrom fn 1 (args.zip expected)
  else .error (.arity fn expected.length args.length)

def expectBool (fn : String) : Value → Except RuntimeFault Bool
  | .bool b => .ok b
  | v => .error (.argument fn "argument" "Bool" v.tag)

def expectInt (fn : String) : Value → Except RuntimeFault Int
  | .int n => .ok n
  | v => .error (.argument fn "argument" "Int" v.tag)

def expectString (fn : String) : Value → Except RuntimeFault String
  | .string s => .ok s
  | v => .error (.argument fn "argument" "String" v.tag)

def expectArray (fn : String) : Value → Except RuntimeFault (List Value)
  | .array elems => .ok elems
  | v => .error (.argument fn "argument" "Array" v.tag)

def expectTerm (fn : String) : Value → Except RuntimeFault Term
  | .term t => .ok t
  | v => .error (.argument fn "argument" "Term" v.tag)

def expectTermType (fn : String) : Value → Except RuntimeFault TermType
  | .termType t => .ok t
  | v => .error (.argument fn "argument" "Type" v.tag)

/-- A term that is a condition. -/
def expectBit (fn : String) (v : Value) : Except RuntimeFault Term := do
  let t ← expectTerm fn v
  if t.type = .bit then return t else throw (.notBit fn t.type)

end VeriScript.Value
