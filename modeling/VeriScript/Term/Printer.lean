import VeriScript.Display
import VeriScript.Term.Basic

/-!
# Terms as text

The printer of terms (`pretty_term`).

* `Term.render` — a term with the parentheses that reading it back needs.
* `Term.shown` — the same, unless an integer in the term is too long to be written.
-/

namespace VeriScript

/-- An operator as a symbol. -/
def UnaryTermOp.symbol : UnaryTermOp → String
  | .not => "¬"
  | op => op.text

@[inherit_doc UnaryTermOp.symbol]
def BinaryTermOp.symbol : BinaryTermOp → String
  | .and => "∧"
  | .or => "∨"
  | .imp => "⟹"
  | .ne => "≠"
  | .le => "≤"
  | .ge => "≥"
  | op => op.text

namespace Term

/-- How tightly the outermost part of a term holds together. -/
def precedence : Term → Nat
  | .ite _ _ _ => 0
  | .binary _ op _ _ => op.precedence
  | .unary _ _ _ => 7
  | .const _ _ | .var _ _ => 8

/-- Parentheses around a term that binds more loosely than its place demands. -/
def wrap (t : Term) (least : Nat) (text : String) : String :=
  if t.precedence < least then "(" ++ text ++ ")" else text

/-- A constant: as a truth value or as a number, by its type. -/
def constText (type : TermType) (value : Scalar) : String :=
  match type with
  | .bit => if value.isTrue then "True" else "False"
  | .integer => value.text

/-- A term as text. -/
def render (display : Display) : Term → String
  | .const type value => constText type value
  | .var _ name => if display.color then "\x1b[34m" ++ name ++ "\x1b[0m" else name
  | .unary _ op arg =>
    (if display.ascii then op.text else op.symbol) ++ wrap arg 7 (arg.render display)
  | .binary _ op left right =>
    let p := op.precedence
    let (leftLeast, rightLeast) := if op = .imp then (p + 1, p) else (p, p + 1)
    wrap left leftLeast (left.render display) ++ " " ++
      (if display.ascii then op.text else op.symbol) ++ " " ++
      wrap right rightLeast (right.render display)
  | .ite test yes no =>
    "if " ++ test.render display ++ " then " ++ yes.render display ++ " else " ++ no.render display

/-- The integers in a term, which its text has in decimal. -/
def numerals : Term → List Int
  | .const .integer (.int n) => [n]
  | .const _ _ | .var _ _ => []
  | .unary _ _ arg => arg.numerals
  | .binary _ _ left right => left.numerals ++ right.numerals
  | .ite test yes no => test.numerals ++ yes.numerals ++ no.numerals

/-- A term as text, if it can be written. -/
def shown (display : Display) (t : Term) : Except Text.Fault String :=
  Text.written t.numerals (t.render display)

end Term

end VeriScript
