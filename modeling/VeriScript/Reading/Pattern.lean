import VeriScript.Reading.Type
import VeriScript.Script.Basic

/-!
# Reading patterns

`pattern` reads a pattern (`make_tuple_pattern`), `typedPattern` (`make_typed_pattern`) a pattern that may have its type
behind it.
-/

namespace VeriScript.Reading

open VeriScript.Reading.Parser

/-- A pattern read by `pattern`, and its type if there is one. -/
def typedPatternWith (pattern : Parser Pattern) : Parser Pattern := do
  let p ← pattern
  match ← opt (do literal ":"; typeExpr) with
  | some t => return p.withType t
  | none => return p

/-- A pattern, its inner patterns read by `pattern`. -/
def patternWith (pattern : Parser Pattern) : Parser Pattern := do
  let span ← here
  (do let _ ← token wildcardSize?; return .wildcard span none)
  <|> (do return .var span (← identifier) none)
  <|> (do
    literal "("
    let ps ← sepBy (typedPatternWith pattern)
    literal ")"
    match ps with
    | [p] => return .paren span p none
    | ps => return .tuple span ps none)

/-- A pattern with parentheses at most `depth` deep. -/
def patternAt : Nat → Parser Pattern
  | 0, _ => none
  | depth + 1, cur => patternWith (patternAt depth) cur

/-- A pattern. -/
def pattern : Parser Pattern := fun cur =>
  patternAt (cur.rest.length + 1) cur

/-- A pattern and its type if there is one. -/
def typedPattern : Parser Pattern :=
  typedPatternWith pattern

end VeriScript.Reading
