import VeriScript.Reading.Operators
import VeriScript.Reading.Pattern
import VeriScript.Script.Operator

/-!
# Reading scripts

The rules of expressions and statements (`VSLGrammar`) are given over the readers of the expressions and statements
inside (`Rules`), and tied together by recursion: an expression inside another one starts behind at least one character
of it, and a statement may be no more than an expression, so twice the number of characters left bounds the depth.

* `expr`, `stmt` — an expression; a statement with its semicolon.
* `stmts` — statements as long as they can be read.
-/

namespace VeriScript.Reading

open VeriScript.Reading.Parser

/-- The readers of what is inside. -/
structure Rules where
  expr : Parser Expr
  stmt : Parser Stmt

/-- Functions of one parameter after another. -/
def lambdas (span : Span) (params : List Pattern) (body : Expr) : Expr :=
  params.foldr (fun p e => .lam span p e) body

/-! ## Literals -/

/-- An integer literal. -/
def intLiteral : Parser Nat := do
  readable (intValue (← token (intSize? [16, 2, 8])))

/-- A string literal. -/
def stringLiteral : Parser String := do
  return stringValue (← token stringSize?)

/-- The text between double braces. -/
def codeText : Parser String := do
  return String.ofList (inner (← token (betweenSize? ['\x7b', '\x7b'] ['\x7d', '\x7d'])))

/-- The text of a term type. -/
def termTypeText : Parser String := do
  return String.ofList (inner (← token (betweenSize? ['\x7b', '|'] ['|', '\x7d'])))

/-! ## Declarations -/

namespace Rules

variable (r : Rules)

/-- A function with its parameters and maybe the type of its result. -/
def functionDecl : Parser Decl := do
  let span ← here
  let name ← identifier
  let params ← many1 pattern
  let type? ← opt (do literal ":"; typeExpr)
  literal "="
  let body ← r.expr
  let body := match type? with
    | some t => .typed body.span body t
    | none => body
  return .mk span (.var span name none) (lambdas span params body)

/-- A pattern and its value. -/
def patternDecl : Parser Decl := do
  let span ← here
  let p ← typedPattern
  literal "="
  return .mk span p (← r.expr)

def decl : Parser Decl :=
  r.functionDecl <|> r.patternDecl

/-- One declaration, or a recursive group. -/
def group : Parser Group := do
  let span ← here
  (do
    keyword "rec"
    let d ← r.decl
    let ds ← many (do keyword "and"; r.decl)
    return .recursive span (d :: ds))
  <|> (do return .single span (← r.decl))

/-! ## Expressions -/

/-- A field of a record. -/
def field : Parser (String × Expr) := do
  let name ← identifier
  literal "="
  return (name, ← r.expr)

/-- An expression that needs no parentheses. -/
def atom : Parser Expr := do
  let span ← here
  (do return .code span (← codeText))
  <|> (do return .termType span (← termTypeText))
  <|> (do return .int span (← intLiteral))
  <|> (do return .string span (← stringLiteral))
  <|> (do literal "("; literal ")"; return .tuple span [])
  <|> (do
    literal "("
    let es ← sepBy1 r.expr
    literal ")"
    match es with
    | [e] => return .paren span e
    | es => return .tuple span es)
  <|> (do
    literal "["
    let es ← sepBy r.expr
    literal "]"
    return .array span es)
  <|> (do
    keyword "do"
    literal "\x7b"
    let body ← many r.stmt
    literal "\x7d"
    return .block span body)
  <|> (do
    literal "\x7b"
    let fields ← sepBy r.field
    literal "\x7d"
    return .record span fields)
  <|> (do return .var span (← identifier))

/-- What selects a part of the value before it. -/
def selector (span : Span) : Parser (Expr → Expr) :=
  (do
    literal "."
    let digits ← token decimalSize?
    let i ← readable (decimalValue digits)
    return fun e => .proj span e i)
  <|> (do
    literal "."
    let name ← identifier
    return fun e => .field span e name)
  <|> (do
    literal "@"
    let i ← r.atom
    return fun e => .index span e i)

/-- An atom and what selects from it. -/
def selection : Parser Expr := do
  let span ← here
  let e ← r.atom
  let selectors ← many (r.selector span)
  return selectors.foldl (fun e select => select e) e

/-- A function and its arguments. -/
def application : Parser Expr := do
  let span ← here
  let fn ← r.selection
  let args ← many r.selection
  return args.foldl (fun fn arg => .app span fn arg) fn

end Rules

/-- The characters `s`, unless one of `stops` comes right behind them. -/
def symbol (s : String) (stops : List Char) : Parser Unit := do
  let _ ← token fun cs =>
    if s.toList.isPrefixOf cs && !(cs.drop s.toList.length).head?.any stops.contains then some s.toList.length
    else none

/-- An infix operator; the tightest level is tried first. -/
def binaryOp : Parser (BinaryOp × Span) := do
  let span ← here
  let op ←
    (do symbol "*" []; return BinaryOp.mul)
    <|> (do symbol "/" []; return .div)
    <|> (do symbol "%" []; return .mod)
    <|> (do symbol "+" []; return .add)
    <|> (do symbol "-" ['>']; return .sub)
    <|> (do symbol "==" []; return .eq)
    <|> (do symbol "!=" []; return .ne)
    <|> (do symbol "<=" []; return .le)
    <|> (do symbol ">=" []; return .ge)
    <|> (do symbol "<" ['-', '=']; return .lt)
    <|> (do symbol ">" []; return .gt)
    <|> (do symbol "&&" []; return .and)
    <|> (do symbol "||" []; return .or)
  return (op, span)

/-- The levels of the operators, from the loosest to the tightest. -/
def binaryLevels : List (Level (BinaryOp × Span) Expr) :=
  [4, 3, 2, 1, 0].map fun n => ⟨fun op => op.1.level = n, BinaryOp.chain⟩

namespace Rules

variable (r : Rules)

/-- Applications with infix operators between them. -/
def operation : Parser Expr := do
  let first ← r.application
  let rest ← operations binaryOp r.application
  return grouped binaryLevels first rest

/-- An expression. -/
def expression : Parser Expr := do
  let span ← here
  (do
    keyword "let"
    let g ← r.group
    keyword "in"
    return .letIn span g (← r.expr))
  <|> (do
    literal "\\"
    let params ← many1 pattern
    literal "->"
    return lambdas span params (← r.expr))
  <|> (do
    keyword "if"
    let test ← r.expr
    keyword "then"
    let yes ← r.expr
    keyword "else"
    return .ite span test yes (← r.expr))
  <|> (do
    let e ← r.operation
    match ← opt (do literal ":"; typeExpr) with
    | some t => return .typed span e t
    | none => return e)

/-! ## Statements -/

/-- A statement with its semicolon. -/
def statement : Parser Stmt := do
  let span ← here
  let s ←
    (do keyword "let"; return Stmt.code span (← codeText))
    <|> (do
      keyword "let"
      let g ← r.group
      notKeyword ["in"]
      return .define span g)
    <|> (do
      keyword "typedef"
      let name ← typeName
      literal "="
      return .typedef span name (← typeExpr))
    <|> (do
      keyword "import"
      let file ← stringLiteral
      let qualifier ← opt (do keyword "as"; identifier)
      return .importTerms span file qualifier)
    <|> (do
      let p ← typedPattern
      literal "<-"
      return .bind span p (← r.expr))
    <|> (do return .bind span (.wildcard span none) (← r.expr))
  literal ";"
  return s

end Rules

mutual

/-- An expression with others inside it at most `depth` deep. -/
def exprAt : Nat → Parser Expr
  | 0, _ => none
  | depth + 1, cur => Rules.expression ⟨exprAt depth, stmtAt depth⟩ cur

/-- A statement with others inside it at most `depth` deep. -/
def stmtAt : Nat → Parser Stmt
  | 0, _ => none
  | depth + 1, cur => Rules.statement ⟨exprAt depth, stmtAt depth⟩ cur

end

/-- An expression. -/
def expr : Parser Expr := fun cur =>
  exprAt (2 * cur.rest.length + 2) cur

/-- A statement with its semicolon. -/
def stmt : Parser Stmt := fun cur =>
  stmtAt (2 * cur.rest.length + 2) cur

/-- Statements as long as they can be read. -/
def stmts : Parser (List Stmt) :=
  many stmt

end VeriScript.Reading
