import VeriScript.Term.Printer
import VeriScript.Text.Quoted
import VeriScript.Value.Basic

/-!
# Values as text

The printer of values (`show_value`).

* `Value.render` — the text of a value.
* `Value.shown` — the same, unless an integer that the text has in decimal is too long to be written.
-/

namespace VeriScript

/-- A scalar of a counterexample. -/
def Scalar.render (display : Display) : Scalar → String
  | .bit b => if b then "True" else "False"
  | .int n => Text.inBase display.base n

def Scalar.numerals (base : Int) : Scalar → List Int
  | .bit _ => []
  | .int n => Text.decimals base n

namespace Value

/-- The outcome of a proof. -/
def renderOutcome (display : Display) (valid : Bool) (cex : Counterexample) : String :=
  if valid then "Valid"
  else "Invalid: [" ++
    String.intercalate ", " (cex.map fun e => e.1 ++ " = " ++ e.2.render display) ++ "]"

mutual

/-- A value as it is shown; the fields of a record in the order of their names. -/
def render (display : Display) : Value → String
  | .unit => "()"
  | .bool b => if b then "true" else "false"
  | .int n => Text.inBase display.base n
  | .string s => Text.scriptText s
  | .array elems => "[" ++ String.intercalate ", " (renderList display elems) ++ "]"
  | .tuple elems => "(" ++ String.intercalate ", " (renderList display elems) ++ ")"
  | .record fields =>
    let texts := (Table.sortByName (renderFields display fields)).map fun f => f.1 ++ " = " ++ f.2
    "\x7b" ++ String.intercalate ", " texts ++ "\x7d"
  | .closure _ _ _ _ | .builtin _ _ _ => "<<function>>"
  | .action job =>
    match job.context with
    | some kind => "<<" ++ kind.name ++ " action>>"
    | none => "<<monadic action>>"
  | .term t => t.render display
  | .termType t => t.name
  | .proved prop _ => "Theorem " ++ prop.render display
  | .proofResult valid cex => renderOutcome display valid cex
  | .spec s => "<<spec " ++ s.name ++ " (" ++ s.status.name ++ ")>>"
  | .foreign tag => "<<" ++ tag ++ ">>"

def renderList (display : Display) : List Value → List String
  | [] => []
  | v :: vs => render display v :: renderList display vs

def renderFields (display : Display) : List (String × Value) → List (String × String)
  | [] => []
  | (name, v) :: fields => (name, render display v) :: renderFields display fields

end

mutual

/-- The integers that the text of a value has in decimal. -/
def numerals (base : Int) : Value → List Int
  | .int n => Text.decimals base n
  | .array elems | .tuple elems => numeralsList base elems
  | .record fields => numeralsFields base fields
  | .term t | .proved t _ => t.numerals
  | .proofResult valid cex => if valid then [] else cex.flatMap fun e => e.2.numerals base
  | .unit | .bool _ | .string _ | .closure _ _ _ _ | .builtin _ _ _ | .action _ | .termType _ | .spec _
  | .foreign _ => []

def numeralsList (base : Int) : List Value → List Int
  | [] => []
  | v :: vs => numerals base v ++ numeralsList base vs

def numeralsFields (base : Int) : List (String × Value) → List Int
  | [] => []
  | (_, v) :: fields => numerals base v ++ numeralsFields base fields

end

/-- A value as it is shown, if it can be written. -/
def shown (display : Display) (v : Value) : Except Text.Fault String :=
  Text.written (v.numerals display.base) (v.render display)

end Value

end VeriScript
