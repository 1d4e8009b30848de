import VeriScript.Term.Basic
import VeriScript.Text.Lines

/-!
# Terms as Coq definitions

* `Term.coq` (`coq_expr`) — a term as an expression of Coq, over integers `Z` and booleans `bool`.
* `Term.coqDefinition` (`translate_coq`) — the definition of a term as a function of its free variables.
-/

namespace VeriScript

def TermType.coq : TermType → String
  | .integer => "Z"
  | .bit => "bool"

/-- Two colons become an underscore, from left to right. -/
def coqNameChars : List Char → List Char
  | ':' :: ':' :: cs => '_' :: coqNameChars cs
  | c :: cs => c :: coqNameChars cs
  | [] => []

/-- The name of a variable in Coq. -/
def coqName (name : String) : String :=
  String.ofList (coqNameChars name.toList)

/-- What an exported file starts with. -/
def coqPreamble : String :=
  Text.joinLines ["From Coq Require Import ZArith.", "From Coq Require Import Bool.",
    "Open Scope Z_scope.", ""]

namespace Term

/-- A function of Coq applied to two arguments. -/
def coqCall (fn left right : String) : String :=
  "(" ++ fn ++ " " ++ left ++ " " ++ right ++ ")"

/-- An operator of Coq between two arguments. -/
def coqBetween (op left right : String) : String :=
  "(" ++ left ++ " " ++ op ++ " " ++ right ++ ")"

/-- A term as an expression of Coq. -/
def coq : Term → String
  | .const .bit value => if value.isTrue then "true" else "false"
  | .const .integer value => if value.toInt ≥ 0 then value.text else "(" ++ value.text ++ ")"
  | .var _ name => coqName name
  | .unary _ .not arg => "(negb " ++ arg.coq ++ ")"
  | .unary _ .neg arg => "(- " ++ arg.coq ++ ")"
  | .ite test yes no => "(if " ++ test.coq ++ " then " ++ yes.coq ++ " else " ++ no.coq ++ ")"
  | .binary _ op left right =>
    let equal := coqCall (match left.type with | .integer => "Z.eqb" | .bit => "Bool.eqb") left.coq right.coq
    match op with
    | .add | .sub | .mul => coqBetween op.text left.coq right.coq
    | .div => coqCall "Z.div" left.coq right.coq
    | .mod => coqCall "Z.modulo" left.coq right.coq
    | .eq => equal
    | .ne => "(negb " ++ equal ++ ")"
    | .lt => coqCall "Z.ltb" left.coq right.coq
    | .le => coqCall "Z.leb" left.coq right.coq
    | .gt => coqCall "Z.gtb" left.coq right.coq
    | .ge => coqCall "Z.geb" left.coq right.coq
    | .and => coqCall "andb" left.coq right.coq
    | .or => coqCall "orb" left.coq right.coq
    | .imp => coqCall "implb" left.coq right.coq

/-- The definition of a term in Coq, as a function of its free variables. -/
def coqDefinition (name : String) (t : Term) : String :=
  let params := t.vars.map fun v => " (" ++ coqName v.1 ++ " : " ++ v.2.coq ++ ")"
  "Definition " ++ name ++ String.join params ++ " : " ++ t.type.coq ++ " :=\n  " ++ t.coq ++ ".\n"

end Term

end VeriScript
