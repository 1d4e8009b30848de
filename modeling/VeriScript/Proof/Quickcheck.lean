import VeriScript.Term.Eval

/-!
# Testing goals

The tests of `quickcheck`: `Term.firstFailure` tries a goal on assignments, three at the edges first, then random ones
(`_assignments`).

* `edgeAssignments` — all variables low, all high, all high with the negative number.
* `randomAssignments` — assignments from a stream of random numbers, whatever these are.
-/

namespace VeriScript

/-- Give every variable the scalar of its type; the last type of a name counts. -/
def assignByType (vars : List (String × TermType)) (int : Int) (bit : Bool) : Assignment :=
  (vars.map fun v => (v.1, match v.2 with | .integer => Scalar.int int | .bit => Scalar.bit bit)).reverse

/-- The assignments at the edges. -/
def edgeAssignments (vars : List (String × TermType)) : List Assignment :=
  [assignByType vars 0 false, assignByType vars 1 true, assignByType vars (-1) true]

/-- A scalar of a type from a random number: an integer between -1000 and 1000, or a bit. -/
def randomScalar (type : TermType) (draw : Nat) : Scalar :=
  match type with
  | .integer => .int ((draw % 2001 : Nat) - 1000)
  | .bit => .bit (draw % 2 == 1)

/-- A random scalar for every variable, the last one first, from the random numbers from the `first` on. -/
def randomAssignment (draws : Nat → Nat) : List (String × TermType) → Nat → Assignment → Assignment
  | [], _, done => done
  | (name, type) :: vars, first, done =>
    randomAssignment draws vars (first + 1) ((name, randomScalar type (draws first)) :: done)

/-- `count` random assignments, from the random numbers from the `first` on. -/
def randomAssignments (draws : Nat → Nat) (vars : List (String × TermType)) : Nat → Nat → List Assignment
  | 0, _ => []
  | count + 1, first =>
    randomAssignment draws vars first [] :: randomAssignments draws vars count (first + vars.length)

/-- The number of random assignments among `count` tests. -/
def randomTests (count : Int) : Nat :=
  (count - 3).toNat

/-- The assignments that `count` tests are made on: the edges in any case; without variables there is one
assignment. -/
def testAssignments (draws : Nat → Nat) (vars : List (String × TermType)) (count : Int) : List Assignment :=
  if vars.isEmpty then [[]]
  else edgeAssignments vars ++ randomAssignments draws vars (randomTests count) 0

/-- The first assignment under which a condition fails, or the number of assignments tried. -/
def Term.firstFailure (t : Term) : Nat → List Assignment → Except TermFault (Nat ⊕ Assignment)
  | tried, [] => .ok (.inl tried)
  | tried, a :: as => do
    if (← t.eval a).isTrue then t.firstFailure (tried + 1) as else return .inr a

end VeriScript
