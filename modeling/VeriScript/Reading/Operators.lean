import VeriScript.Reading.Cursor

/-!
# Infix operators

An expression with infix operators is read as a first operand and a list of operators with the operand
behind each; the levels of the operators then say how it is grouped, as release 3.3.3 of the grammar library does.

* `operations` — the operators and operands behind a first operand.
* `Level`, `grouped` — group from the loosest level to the tightest.
-/

namespace VeriScript.Reading

variable {α ο : Type}

/-- Operators, each with its operand, as long as an operator comes next, at most `fuel` of them.  An operator
without an operand makes the whole reading fail. -/
def operationsIn (operator : Parser ο) (operand : Parser α) : Nat → Parser (List (ο × α))
  | 0 => fun cur => some ([], cur)
  | fuel + 1 => fun cur =>
    match operator cur with
    | none => some ([], cur)
    | some (o, cur) =>
      match operand cur with
      | none => none
      | some (a, cur) =>
        match operationsIn operator operand fuel cur with
        | some (rest, cur) => some ((o, a) :: rest, cur)
        | none => none

@[inherit_doc operationsIn]
def operations (operator : Parser ο) (operand : Parser α) : Parser (List (ο × α)) := fun cur =>
  operationsIn operator operand cur.rest.length cur

/-- Operators that bind equally tightly: which they are, and what a first operand and a chain of them with
their operands means. -/
structure Level (ο α : Type) where
  has : ο → Bool
  combine : α → List (ο × α) → α

/-- Divide a list of operations at the operators of a level: the operations before the first of them, and
for each of them its operand with the operations up to the next. -/
def divide (has : ο → Bool) : List (ο × α) → List (ο × α) × List (ο × α × List (ο × α))
  | [] => ([], [])
  | (o, a) :: rest =>
    let (ops, parts) := divide has rest
    if has o then ([], (o, a, ops) :: parts) else ((o, a) :: ops, parts)

/-- Group a first operand and the operations behind it, the levels given from the loosest to the tightest. -/
def grouped : List (Level ο α) → α → List (ο × α) → α
  | [], first, _ => first
  | level :: tighter, first, rest =>
    let (ops, parts) := divide level.has rest
    level.combine (grouped tighter first ops)
      (parts.map fun (o, a, ops) => (o, grouped tighter a ops))

end VeriScript.Reading
