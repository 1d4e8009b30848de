import VeriScript.Value.Basic
import VeriScript.Value.Error

/-!
# Equality of values

`Value.equal` (`values_equal`) compares values part by part.  Functions and actions cannot be compared; they are met
only if no part before them differs.  A bit and the number it stands for are the same scalar.
-/

namespace VeriScript

/-- The same number. -/
def Scalar.same (a b : Scalar) : Bool :=
  a.toInt == b.toInt

namespace Term

/-- The same term, up to the spelling of scalars. -/
def same : Term → Term → Bool
  | .const t a, .const u b => t == u && a.same b
  | .var t a, .var u b => t == u && a == b
  | .unary t op a, .unary u op' b => t == u && op == op' && a.same b
  | .binary t op a b, .binary u op' c d => t == u && op == op' && a.same c && b.same d
  | .ite a b c, .ite d e f => a.same d && b.same e && c.same f
  | _, _ => false

/-- The same terms one after another. -/
def sameAll : List Term → List Term → Bool
  | [], [] => true
  | t :: ts, u :: us => t.same u && sameAll ts us
  | _, _ => false

end Term

/-- The same assignment, up to the spelling of scalars. -/
def Counterexample.same : Counterexample → Counterexample → Bool
  | [], [] => true
  | (x, a) :: as, (y, b) :: bs => x == y && a.same b && Counterexample.same as bs
  | _, _ => false

/-- The same specification, up to the spelling of scalars. -/
def Spec.same (a b : Spec) : Bool :=
  a.name == b.name && a.status == b.status && Term.sameAll a.draft.vars b.draft.vars &&
    Term.sameAll a.draft.pre b.draft.pre && Term.sameAll a.draft.post b.draft.post

namespace Value

/-- A function or an action. -/
def isFunctional : Value → Bool
  | .closure _ _ _ _ | .builtin _ _ _ | .action _ => true
  | _ => false

mutual

/-- Whether two values are equal. -/
def equal (a b : Value) : Except RuntimeFault Bool :=
  match a with
  | .closure _ _ _ _ | .builtin _ _ _ | .action _ => .error .incomparable
  | .array as =>
    match b with
    | .array bs => if as.length = bs.length then equalList as bs else .ok false
    | b => if b.isFunctional then .error .incomparable else .ok false
  | .tuple as =>
    match b with
    | .tuple bs => if as.length = bs.length then equalList as bs else .ok false
    | b => if b.isFunctional then .error .incomparable else .ok false
  | .record fs =>
    match b with
    | .record gs => if Table.sameNames fs gs then equalFields fs gs else .ok false
    | b => if b.isFunctional then .error .incomparable else .ok false
  | a =>
    if b.isFunctional then .error .incomparable
    else .ok <| match a, b with
      | .unit, .unit => true
      | .bool x, .bool y => x == y
      | .int x, .int y => x == y
      | .string x, .string y => x == y
      | .term x, .term y => x.same y
      | .termType x, .termType y => x == y
      | .proved x s, .proved y t => x.same y && s == t
      | .proofResult x s, .proofResult y t => x == y && Counterexample.same s t
      | .spec x, .spec y => x.same y
      | .foreign x, .foreign y => x == y
      | _, _ => false

/-- Compare element by element until two differ. -/
def equalList : List Value → List Value → Except RuntimeFault Bool
  | a :: as, b :: bs => do if ← equal a b then equalList as bs else return false
  | _, _ => .ok true

/-- Compare field by field, in the order of the first record, until two differ. -/
def equalFields : List (String × Value) → List (String × Value) → Except RuntimeFault Bool
  | [], _ => .ok true
  | (name, a) :: fs, gs => do
    match Table.get? gs name with
    | some b => if ← equal a b then equalFields fs gs else return false
    | none => return false

end

end Value

end VeriScript
