import VeriScript.Run.Error
import VeriScript.Term.Eval
import VeriScript.Value.Access
import VeriScript.Value.Equality
import VeriScript.Value.Printer

/-!
# Functions among the primitives

`Op.apply` is the value of a primitive function (`vsl_nth`, `vsl_eq`, …) on all its arguments, `Primitive.apply` that of
any primitive: a command gives an action.
-/

namespace VeriScript

/-- Operands that are integers, both of them. -/
def intOperands (verb : String) (x y : Value) : Except RuntimeFault (Int × Int) :=
  match x, y with
  | .int a, .int b => .ok (a, b)
  | x, y => .error (.operands verb x.tag y.tag)

/-- Division rounds down and the remainder has the sign of the divisor. -/
def ArithOp.apply (op : ArithOp) (a b : Int) : Except RuntimeFault Int :=
  match op with
  | .add => .ok (a + b)
  | .sub => .ok (a - b)
  | .mul => .ok (a * b)
  | .div => if b = 0 then .error (.byZero op.verb) else .ok (a.fdiv b)
  | .mod => if b = 0 then .error (.byZero op.verb) else .ok (a.fmod b)

def OrderOp.apply : OrderOp → Int → Int → Bool
  | .lt, a, b => a < b
  | .le, a, b => a ≤ b
  | .gt, a, b => a > b
  | .ge, a, b => a ≥ b

/-- The value of a closed term of the expected type. -/
def concreteTerm (fn : String) (expected : TermType) (v : Value) : Except ScriptError Scalar := do
  let t ← (v.expectTerm fn).mapError fun fault => .runtime (.ofFault fault)
  if t.type ≠ expected then throw (.runtime (.ofFault (.termTypeOf fn expected t.type)))
  (t.eval []).mapError fun fault => .term ⟨fault, none⟩

/-- The value of a function of one argument. -/
def Op.applyOne (op : Op) (x : Value) : Except RuntimeFault Value := do
  match op with
  | .yield => return .action (.yield x)
  | .null => return .bool (← x.expectArray op.name).isEmpty
  | .head =>
    match ← x.expectArray op.name with
    | v :: _ => return v
    | [] => throw (.emptyList op.name)
  | .tail =>
    match ← x.expectArray op.name with
    | _ :: vs => return .array vs
    | [] => throw (.emptyList op.name)
  | .length => return .int (← x.expectArray op.name).length
  | .not => return .bool !(← x.expectBool op.name)
  | .showValue => return .string (← (x.shown .standard).mapError .unwritable)
  | .showTerm => return .string (← ((← x.expectTerm op.name).shown .standard).mapError .unwritable)
  | .termType => return .termType (← x.expectTerm op.name).type
  | .termSize => return .int (← x.expectTerm op.name).size
  | op => throw (.arity op.name op.arity 1)

/-- The value of a function of two arguments. -/
def Op.applyTwo (op : Op) (x y : Value) : Except RuntimeFault Value := do
  match op with
  | .forEach => return .action (.forEach (← x.expectArray op.name) y)
  | .nth => x.index y
  | .concat =>
    Value.expectAll op.name [x, y] ["Array", "Array"]
    return .array ((← x.expectArray op.name) ++ (← y.expectArray op.name))
  | .strConcat =>
    Value.expectAll op.name [x, y] ["String", "String"]
    return .string ((← x.expectString op.name) ++ (← y.expectString op.name))
  | .arith op =>
    let (a, b) ← intOperands op.verb x y
    return .int (← op.apply a b)
  | .order op =>
    let (a, b) ← intOperands "compare" x y
    return .bool (op.apply a b)
  | .eq => return .bool (← x.equal y)
  | .neq => return .bool !(← x.equal y)
  | op => throw (.arity op.name op.arity 2)

/-- The value of a function on all its arguments. -/
def Op.apply (op : Op) (args : List Value) : Except ScriptError Value :=
  match op, args with
  | .gather _ _, args => .ok (.array args)
  | .evalInt, [x] => do return .int (← concreteTerm op.name .integer x).toInt
  | .evalBool, [x] => do return .bool (← concreteTerm op.name .bit x).isTrue
  | op, [x] => (op.applyOne x).mapError fun fault => .runtime (.ofFault fault)
  | op, [x, y] => (op.applyTwo x y).mapError fun fault => .runtime (.ofFault fault)
  | op, args => .error (.runtime (.ofFault (.arity op.name op.arity args.length)))

/-- The value of a primitive on all its arguments. -/
def Primitive.apply (prim : Primitive) (args : List Value) : Except ScriptError Value :=
  match prim with
  | .op o => o.apply args
  | .command c => .ok (.action (.command c args))

end VeriScript
