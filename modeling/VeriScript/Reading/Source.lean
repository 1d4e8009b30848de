import VeriScript.Reading.Report
import VeriScript.Reading.Script
import VeriScript.Text.Utf8

/-!
# Reading whole texts

* `parseProgram`, `parseStatement`, `parseExpression`, `parseType`, `parseSchema` — a text read to its end.
* `ParseError` — why a text could not be read, and the message that says so (`VSLParseError`).
-/

namespace VeriScript

inductive ParseError where
  /-- Not even the start of the text could be read. -/
  | nothing
  /-- The text `text` goes on at a line and column where it should have ended. -/
  | leftover (file text : String) (line col : Nat)
  | missingFile (path : String)
  | undecodable (path : String) (fault : Text.Utf8Fault)
  deriving Repr

def ParseError.message : ParseError → String
  | .nothing => "Parse error"
  | .leftover file text line col => Reading.leftoverReport file text line col
  | .missingFile path => "Parse error: File not found: " ++ path
  | .undecodable path fault => "Parse error: Cannot decode file " ++ path ++ ": " ++ fault.message

/-- Read the whole of a text. -/
def parseAll {α : Type} (p : Reading.Parser α) (file text : String) : Except ParseError α :=
  match Reading.readAll p file text with
  | .done a => .ok a
  | .leftover line col => .error (.leftover file text line col)
  | .nothing => .error .nothing

/-- The statements of a script; a blank text has none. -/
def parseProgram (file text : String) : Except ParseError (List Stmt) :=
  if Text.allBlank text then .ok [] else parseAll Reading.stmts file text

/-- A statement as it is typed: without blanks at its end, and with the semicolon it may lack. -/
def completeStatement (text : String) : String :=
  let text := Text.trimRight text
  if text.toList.getLast? = some ';' then text else text.push ';'

/-- One statement, whose semicolon may be missing. -/
def parseStatement (file text : String) : Except ParseError Stmt :=
  parseAll Reading.stmt file (completeStatement text)

def parseExpression (file text : String) : Except ParseError Expr :=
  parseAll Reading.expr file text

def parseType (file text : String) : Except ParseError Ty :=
  parseAll Reading.typeExpr file text

def parseSchema (file text : String) : Except ParseError Schema :=
  parseAll Reading.schema file text

end VeriScript
