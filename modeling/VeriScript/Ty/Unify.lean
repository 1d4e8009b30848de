import VeriScript.Ty.Basic

/-!
# Unification

To unify two types (`unify`), they are taken apart into equations between a hole and a type.  The first equation
fills its hole, in the equations behind it too, and so on until none is left.

* `Ty.split` — the equations that two types come down to, from left to right; a pair that nothing can make
  equal stays as it is.
* `Ty.solve` — the bindings that solve equations, and what stopped it.
* `Ty.applyBindings` — bindings applied to a type (`zonk`).
-/

namespace VeriScript

/-- Holes and the types that fill them, the newest first.  The type of a binding holds no hole that is
bound at that time. -/
abbrev Bindings := List (Nat × Ty)

/-- Why two types cannot be made equal. -/
inductive UnifyFault where
  | mismatch (expected actual : Ty)
  | infinite (t : Ty)
  deriving Repr

namespace Ty

/-- The type with all bindings applied, the oldest first. -/
def applyBindings (bindings : Bindings) (t : Ty) : Ty :=
  bindings.foldr (fun b t => fill b.1 b.2 t) t

mutual

/-- The equations that make two types equal: each has a hole on one side, or cannot hold. -/
def split : Ty → Ty → List (Ty × Ty)
  | .hole i, b =>
    match b with
    | .hole j => if i = j then [] else [(.hole i, .hole j)]
    | b => [(.hole i, b)]
  | .var x, b =>
    match b with
    | .var y => if x = y then [] else [(.var x, .var y)]
    | b => [(.var x, b)]
  | .con n as, b =>
    match b with
    | .con m bs => if n = m ∧ as.length = bs.length then splitList as bs else [(.con n as, .con m bs)]
    | b => [(.con n as, b)]
  | .record fs, b =>
    match b with
    | .record gs =>
      if Table.sameNames fs gs then (Table.sortByName (splitFields fs gs)).flatMap (·.2)
      else [(.record fs, .record gs)]
    | b => [(.record fs, b)]

def splitList : List Ty → List Ty → List (Ty × Ty)
  | a :: as, b :: bs => split a b ++ splitList as bs
  | _, _ => []

def splitFields : List (String × Ty) → List (String × Ty) → List (String × List (Ty × Ty))
  | [], _ => []
  | (name, a) :: fs, gs =>
    (name, match Table.get? gs name with | some b => split a b | none => []) :: splitFields fs gs

end

/-- Fill a hole in equations and take them apart again. -/
def splitFilled (id : Nat) (u : Ty) (eqs : List (Ty × Ty)) : List (Ty × Ty) :=
  eqs.flatMap fun e => split (fill id u e.1) (fill id u e.2)

/-- Solve equations one after another, at most `fuel` of them: the bindings made, newest first, before those
in `done`, and the fault that ended it.  Every step does away with one hole, so the number of holes in the
equations is enough fuel. -/
def solve : Nat → List (Ty × Ty) → Bindings → Bindings × Option UnifyFault
  | _, [], done => (done, none)
  | 0, (a, b) :: _, done => (done, some (.mismatch a b))
  | fuel + 1, (a, b) :: eqs, done =>
    match a, b with
    | .hole i, t | t, .hole i =>
      if i ∈ t.holes then (done, some (.infinite t))
      else solve fuel (splitFilled i t eqs) ((i, t) :: done)
    | a, b => (done, some (.mismatch a b))

/-- Unify two types under bindings: the new bindings before the old ones, also those made before a fault. -/
def unify (bindings : Bindings) (expected actual : Ty) : Bindings × Option UnifyFault :=
  let a := applyBindings bindings expected
  let b := applyBindings bindings actual
  solve (a.holes.length + b.holes.length) (split a b) bindings

end Ty

end VeriScript
