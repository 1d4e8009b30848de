import VeriScript.Reading.Term
import VeriScript.Table
import VeriScript.Term.Error

/-!
# From texts to terms

* `RawTerm.elaborate` — resolve the names of a term and check its types (`elaborate`).
* `parseTerm`, `parseTermDecls`, `parseTermType` — read a text and elaborate it (`parse_term`, `parse_decls`).
-/

namespace VeriScript

/-- The types of operands, checked. -/
def BinaryTermOp.elaborate (op : BinaryTermOp) (left right : Term) : Except TermFault Term :=
  match op.operandType? with
  | none =>
    if left.type = right.type then .ok (.binary .bit op left right)
    else .error (.compared op left.type right.type)
  | some expected =>
    if left.type = expected ∧ right.type = expected then .ok (.binary op.resultType op left right)
    else .error (.binaryOperands op expected left.type right.type)

/-- Resolve the names of a term and check its types, from left to right. -/
def RawTerm.elaborate (env : TermEnv) : RawTerm → Except TermFault Term
  | .int n => .ok (.ofInt n)
  | .bool b => .ok (.ofBool b)
  | .name x =>
    match Table.get? env x with
    | some t => .ok t
    | none => .error (.unboundName x)
  | .ite test yes no => do
    let test ← test.elaborate env
    let yes ← yes.elaborate env
    let no ← no.elaborate env
    if test.type ≠ .bit then throw (.ifCondition test.type)
    if yes.type ≠ no.type then throw (.ifBranches yes.type no.type)
    return .ite test yes no
  | .unary op arg => do
    let arg ← arg.elaborate env
    if arg.type ≠ op.operandType then throw (.unaryOperand op arg.type)
    return .unary op.operandType op arg
  | .binary op left right => do
    let left ← left.elaborate env
    let right ← right.elaborate env
    op.elaborate left right

/-- Read the whole of a text of terms. -/
def readTermText {α : Type} (p : Reading.Parser α) (text : String) : Except TermFault α :=
  match Reading.readAll p "" text with
  | .done a => .ok a
  | .leftover line col => .error (.leftover line col)
  | .nothing => .error .badText

/-- Read a term whose names stand for the terms of an environment. -/
def parseTerm (env : TermEnv) (text : String) : Except TermFault Term := do
  (← readTermText Reading.term text).elaborate env

/-- A name with the qualifier it is declared under. -/
def qualifiedName (qualifier : Option String) (name : String) : String :=
  match qualifier with
  | some q => if q = "" then name else q ++ "::" ++ name
  | none => name

/-- Elaborate declarations one after another: each sees those before it by their plain names in `scope`,
and is added to `result` by its qualified name. -/
def elaborateDecls (qualifier : Option String) :
    List (String × RawTerm) → TermEnv → TermEnv → Except TermFault TermEnv
  | [], _, result => .ok result
  | (name, raw) :: decls, scope, result => do
    let t ← raw.elaborate scope
    elaborateDecls qualifier decls (Table.insert scope name t)
      (Table.insert result (qualifiedName qualifier name) t)

/-- Read declarations of terms and add them to an environment. -/
def parseTermDecls (env : TermEnv) (qualifier : Option String) (text : String) :
    Except TermFault TermEnv := do
  elaborateDecls qualifier (← readTermText Reading.termDecls text) env env

/-- Read the name of a term type. -/
def parseTermType (text : String) : Except TermFault TermType :=
  let name := Text.trim text
  match TermType.ofName? name with
  | some t => .ok t
  | none => .error (.unknownType name)

end VeriScript
