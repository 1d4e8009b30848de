import VeriScript.Reading.Operators
import VeriScript.Reading.Lexeme
import VeriScript.Term.Basic

/-!
# Reading terms

`term` reads a term, `termDecls` declarations of terms (`TermGrammar`).  What is read is a `RawTerm`: names are not
resolved and types not known yet.
-/

namespace VeriScript

inductive RawTerm where
  | int (n : Nat)
  | bool (b : Bool)
  | name (name : String)
  | ite (test yes no : RawTerm)
  | unary (op : UnaryTermOp) (arg : RawTerm)
  | binary (op : BinaryTermOp) (left right : RawTerm)
  deriving DecidableEq, Repr

namespace RawTerm

/-- A chain of operators of one level, grouped to the left. -/
def leftChain (first : RawTerm) (rest : List (BinaryTermOp × RawTerm)) : RawTerm :=
  rest.foldl (fun left next => .binary next.1 left next.2) first

/-- A chain of operators of one level, grouped to the right. -/
def rightChain (first : RawTerm) : List (BinaryTermOp × RawTerm) → RawTerm
  | [] => first
  | (op, t) :: rest => .binary op first (rightChain t rest)

end RawTerm

namespace Reading

open VeriScript.Reading.Parser

/-- Words that are no names of terms. -/
def termKeywords : List String := ["if", "then", "else", "True", "False"]

/-- A name of a term. -/
def termName : Parser String := do
  notKeyword termKeywords
  return String.ofList (← token termNameSize?)

/-- The characters `s`, unless `stop` comes right behind them. -/
def termSymbol (s : String) (stop : Option Char) : Parser Unit := do
  let _ ← token fun cs =>
    if s.toList.isPrefixOf cs && (stop.isNone || (cs.drop s.toList.length).head? != stop) then
      some s.toList.length
    else none

/-- A term that no operator stands in front of. -/
def termAtom (term : Parser RawTerm) : Parser RawTerm :=
  (do return .int (← readable (intValue (← token (intSize? [16, 2])))))
  <|> (do keyword "True"; return .bool true)
  <|> (do keyword "False"; return .bool false)
  <|> (do
    keyword "if"
    let test ← term
    keyword "then"
    let yes ← term
    keyword "else"
    return .ite test yes (← term))
  <|> (do return .name (← termName))
  <|> (do
    literal "("
    let t ← term
    literal ")"
    return t)

/-- An operator in front of a term. -/
def unaryTermOp : Parser UnaryTermOp :=
  (do termSymbol "!" (some '='); return .not) <|> (do termSymbol "-" none; return .neg)

/-- An operator between two terms; the tightest level is tried first. -/
def binaryTermOp : Parser BinaryTermOp :=
  (do termSymbol "*" none; return .mul)
  <|> (do termSymbol "/" none; return .div)
  <|> (do termSymbol "%" none; return .mod)
  <|> (do termSymbol "+" none; return .add)
  <|> (do termSymbol "-" none; return .sub)
  <|> (do termSymbol "==" (some '>'); return .eq)
  <|> (do termSymbol "!=" none; return .ne)
  <|> (do termSymbol "<=" none; return .le)
  <|> (do termSymbol ">=" none; return .ge)
  <|> (do termSymbol "<" none; return .lt)
  <|> (do termSymbol ">" none; return .gt)
  <|> (do termSymbol "&&" none; return .and)
  <|> (do termSymbol "||" none; return .or)
  <|> (do termSymbol "==>" none; return .imp)

/-- The levels of the operators, from the loosest to the tightest. -/
def termLevels : List (Level BinaryTermOp RawTerm) :=
  ⟨(· == .imp), RawTerm.rightChain⟩ ::
    [2, 3, 4, 5, 6].map fun n => ⟨fun op => op.precedence = n, RawTerm.leftChain⟩

/-- A term behind any number of operators in front of it. -/
def termOperand (term : Parser RawTerm) : Parser RawTerm := do
  let ops ← many unaryTermOp
  let t ← termAtom term
  return ops.foldr .unary t

/-- A term, its inner terms read by `term`. -/
def termWith (term : Parser RawTerm) : Parser RawTerm := do
  let first ← termOperand term
  let rest ← operations binaryTermOp (termOperand term)
  return grouped termLevels first rest

/-- A term with others inside it at most `depth` deep. -/
def termAt : Nat → Parser RawTerm
  | 0, _ => none
  | depth + 1, cur => termWith (termAt depth) cur

/-- A term. -/
def term : Parser RawTerm := fun cur =>
  termAt (cur.rest.length + 1) cur

/-- A declaration of a term. -/
def termDecl : Parser (String × RawTerm) := do
  let name ← termName
  literal "="
  let t ← term
  literal ";"
  return (name, t)

/-- Declarations as long as they can be read. -/
def termDecls : Parser (List (String × RawTerm)) :=
  many termDecl

end Reading

end VeriScript
