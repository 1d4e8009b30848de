import VeriScript.Reading.Lexeme
import VeriScript.Ty.Basic

/-!
# Reading types

`typeExpr` reads a type, `schema` a type with the variables it quantifies (`make_schema_from_tokens`).

The rules are given over the reader of the types inside (`typeWith`), and tied together by recursion on the
number of characters left: every type inside another one starts behind a bracket.
-/

namespace VeriScript.Reading

open VeriScript.Reading.Parser

/-- Words that are no names. -/
def keywords : List String :=
  ["let", "rec", "and", "in", "if", "then", "else", "do", "typedef", "import", "as"]

/-- A name of a script. -/
def identifier : Parser String := do
  notKeyword keywords
  return String.ofList (← token nameSize?)

/-- The name of a type constructor. -/
def typeName : Parser String := do
  return String.ofList (← token typeNameSize?)

/-- The name of a type variable. -/
def typeVar : Parser String := do
  notKeyword keywords
  return String.ofList (← token typeVarSize?)

/-- A field of a record type. -/
def fieldType (type : Parser Ty) : Parser (String × Ty) := do
  let name ← identifier
  literal ":"
  return (name, ← type)

/-- A type that needs no parentheses. -/
def atomType (type : Parser Ty) : Parser Ty :=
  (do literal "("; literal ")"; return .unit)
  <|> (do
    literal "("
    let types ← sepBy1 type
    literal ")"
    match types with
    | [t] => return t
    | ts => return .tuple ts)
  <|> (do
    literal "["
    let t ← type
    literal "]"
    return .list t)
  <|> (do
    literal "\x7b"
    let fields ← sepBy (fieldType type)
    literal "\x7d"
    return .record (Table.ofList fields))
  <|> (do return .con (← typeName) [])
  <|> (do return .var (← typeVar))

/-- The context of a block type: one of the kinds of context, or a variable. -/
def contextType : Parser Ty :=
  (do keyword "TopLevel"; return .context .topLevel)
  <|> (do keyword "ProofScript"; return .context .proofScript)
  <|> (do keyword "Setup"; return .context .setup)
  <|> (do return .var (← typeVar))

/-- A block type, or a type that needs no parentheses. -/
def operandType (type : Parser Ty) : Parser Ty :=
  (do
    let context ← contextType
    let result ← atomType type
    return .block context result)
  <|> atomType type

/-- The function type from the types in front of arrows; arrows group to the right. -/
def arrows (first : Ty) : List Ty → Ty
  | [] => first
  | t :: ts => .fn first (arrows t ts)

/-- A type, its inner types read by `type`. -/
def typeWith (type : Parser Ty) : Parser Ty := do
  let first ← operandType type
  let rest ← many (do literal "->"; operandType type)
  return arrows first rest

/-- A type with brackets at most `depth` deep. -/
def typeAt : Nat → Parser Ty
  | 0, _ => none
  | depth + 1, cur => typeWith (typeAt depth) cur

/-- A type. -/
def typeExpr : Parser Ty := fun cur =>
  typeAt (cur.rest.length + 1) cur

/-- A schema: the quantified variables in braces before the type; without braces the variables of the type
are quantified. -/
def schema : Parser Schema := do
  let vars? ← opt (do
    literal "\x7b"
    let vars ← sepBy1 typeVar
    literal "\x7d"
    return vars)
  let type ← typeExpr
  return ⟨vars?.getD type.varNames, type⟩

end VeriScript.Reading
