import VeriScript.Script.Basic
import VeriScript.Typing.Checker

/-!
# Type inference

Inference follows the structure of a script.  The order in which holes are introduced and constraints are
solved shows in error messages, so it is part of each rule.

* `inferExpr`, `inferDecl`, `inferGroup` (`infer_expr`, …) — the type of an expression, the schema of a declaration, the
  schemas of a group with the environment behind it.
* `checkExpr`, `checkDecl`, `checkGroup` (`check_expr`, …) — the same from a state of their own.
-/

namespace VeriScript

namespace Check

/-! ## Patterns -/

mutual

/-- The type of a pattern and the types of its variables, from left to right.  A type written on a variable
is its type; a type written on a compound pattern has to agree with what is inside. -/
def inferPattern (env : TypeEnv) : Pattern → Check (Ty × List (String × Ty))
  | .wildcard span type? => do
    match type? with
    | some t => return (← resolve env t span, [])
    | none => return (← fresh, [])
  | .var span name type? => do
    let t ← match type? with
      | some t => resolve env t span
      | none => fresh
    return (t, [(name, t)])
  | .paren span inner type? => do
    let declared ← type?.mapM (resolve env · span)
    let (t, binds) ← inferPattern env inner
    if let some d := declared then unify d t span
    return (t, binds)
  | .tuple span elems type? => do
    let declared ← type?.mapM (resolve env · span)
    let (ts, binds) ← inferPatterns env elems
    if let some d := declared then unify d (.tuple ts) span
    return (.tuple ts, binds)

def inferPatterns (env : TypeEnv) : List Pattern → Check (List Ty × List (String × Ty))
  | [] => return ([], [])
  | p :: ps => do
    let (t, binds) ← inferPattern env p
    let (ts, moreBinds) ← inferPatterns env ps
    return (t :: ts, binds ++ moreBinds)

end

/-- Bind the variables of a pattern to types that are not quantified. -/
def bindMono (env : TypeEnv) (binds : List (String × Ty)) : TypeEnv :=
  env.bindAll (binds.map fun b => (b.1, .mono b.2))

/-- Bind the variables of a pattern to their parts of a schema. -/
def bindPattern (env : TypeEnv) (p : Pattern) (s : Schema) : TypeEnv :=
  env.bindAll ((p.distribute (some s)).filterMap fun e => e.2.map fun part => (e.1, part))

/-- The type of each member of a recursive group, before their bodies are seen, and the environment in which
they all have these types. -/
def inferMembers (env : TypeEnv) : List Decl → TypeEnv → Check (List Ty × TypeEnv)
  | [], inner => return ([], inner)
  | d :: ds, inner => do
    match d.pattern.names with
    | [name] =>
      if d.pattern.isTuple then fail .recursivePattern d.span
      let (t, _) ← inferPattern env d.pattern
      let (ts, inner) ← inferMembers env ds (inner.bind name (.mono t))
      return (t :: ts, inner)
    | _ => fail .recursivePattern d.span

/-- Bind the member of a recursive group. -/
def bindMember (env : TypeEnv) (d : Decl) (s : Schema) : TypeEnv :=
  match d.pattern.names with
  | name :: _ => env.bind name s
  | [] => env

/-- The first name, in order, that occurs more than once. -/
def firstDuplicate (names : List String) : Option String :=
  ((names.filter fun n => names.count n > 1).mergeSort Table.nameLE).head?

/-- A part of a record that is known to be one. -/
def recordField (record : Ty) (field : String) (span : Span) : Check Ty :=
  match record with
  | .record fields =>
    match Table.get? fields field with
    | some t => return t
    | none => fail (.noField record field) span
  | .hole _ => fail (.unknownRecord field) span
  | t => fail (.notRecord field t) span

/-- A part of a tuple that is known to be one. -/
def tupleElem (tuple : Ty) (index : Nat) (span : Span) : Check Ty :=
  match tuple with
  | .tuple elems =>
    match elems[index]? with
    | some t => return t
    | none => fail (.tupleRange index tuple) span
  | .hole _ => fail (.unknownTuple index) span
  | t => fail (.notTuple index t) span

/-- A block at the top level whose context is not known runs in the top-level context.  A block type without
parameters has no context to look at. -/
def defaultContext (t : Ty) (span : Span) : Check Unit := do
  match ← zonk t with
  | .con "Block" [] => fail (.unwritable .missing) span
  | .con "Block" (.hole context :: _) => unify (.context .topLevel) (.hole context) span
  | _ => return

/-! ## Expressions, blocks and declarations -/

mutual

/-- The type of an expression. -/
def inferExpr (env : TypeEnv) : Expr → Check Ty
  | .bool _ _ => do
    visit "BOOL"
    return .bool
  | .int _ _ => do
    visit "INT"
    return .int
  | .string _ _ => do
    visit "STRING"
    return .string
  | .code _ _ => do
    visit "CODE"
    return .term
  | .termType _ _ => do
    visit "CTYPE"
    return .termType
  | .array _ elems => do
    visit "ARRAY"
    let elem ← fresh
    inferElems env elem elems
    return .list elem
  | .tuple _ elems => do
    visit "TUPLE"
    return .tuple (← inferExprs env elems)
  | .record span fields => do
    visit "RECORD"
    if let some name := firstDuplicate (Table.names fields) then fail (.duplicateField name) span
    return .record (← inferFields env fields)
  | .index _ array index => do
    visit "INDEX"
    let elem ← fresh
    unify (.list elem) (← inferExpr env array) array.span
    unify .int (← inferExpr env index) index.span
    return elem
  | .field span record name => do
    visit "LOOKUP"
    recordField (← zonk (← inferExpr env record)) name span
  | .proj span tuple index => do
    visit "TLOOKUP"
    tupleElem (← zonk (← inferExpr env tuple)) index span
  | .var span name => do
    visit "VAR"
    match Table.get? env.types name with
    | some s => instantiate s
    | none => fail (.unboundVariable name) span
  | .lam _ param body => do
    visit "FUNCTION"
    let (arg, binds) ← inferPattern env param
    return .fn arg (← inferExpr (bindMono env binds) body)
  | .app span fn arg => do
    visit "APPLICATION"
    let fnType ← inferExpr env fn
    let argType ← inferExpr env arg
    let result ← fresh
    unify (.fn argType result) fnType span
    return result
  | .letIn _ group body => do
    visit "LET"
    let (_, inner) ← inferGroup env group
    inferExpr inner body
  | .typed span e type => do
    visit "TSIG"
    let declared ← resolve env type span
    unify declared (← inferExpr env e) span
    return declared
  | .ite _ test yes no => do
    visit "IF"
    unify .bool (← inferExpr env test) test.span
    let result ← inferExpr env yes
    unify result (← inferExpr env no) no.span
    return result
  | .block span body => do
    visit "BLOCK"
    if body.isEmpty then fail .emptyBlock span
    let context ← fresh
    return .block context (← inferBody env context body)
  | .paren _ inner => do
    visit "LOCATED"
    inferExpr env inner

/-- Every element has the type `elem`. -/
def inferElems (env : TypeEnv) (elem : Ty) : List Expr → Check Unit
  | [] => return
  | e :: es => do
    unify elem (← inferExpr env e) e.span
    inferElems env elem es

def inferExprs (env : TypeEnv) : List Expr → Check (List Ty)
  | [] => return []
  | e :: es => do
    let t ← inferExpr env e
    let ts ← inferExprs env es
    return t :: ts

def inferFields (env : TypeEnv) : List (String × Expr) → Check (List (String × Ty))
  | [] => return []
  | (name, e) :: fields => do
    let t ← inferExpr env e
    let ts ← inferFields env fields
    return (name, t) :: ts

/-- The type of the last statement's result; all statements that bind run in the one context. -/
def inferBody (env : TypeEnv) (context : Ty) : List Stmt → Check Ty
  | [] => fail .emptyBlock none
  | .bind span p e :: rest => do
    let t ← inferExpr env e
    let value ← fresh
    unify (.block context value) t span
    let (patternType, binds) ← inferPattern env p
    unify patternType value span
    if rest.isEmpty then
      if p.isWildcard then return value else fail .lastStatement span
    else inferBody (bindMono env binds) context rest
  | .define span group :: rest => do
    if rest.isEmpty then fail .lastStatement span
    let (_, inner) ← inferGroup env group
    inferBody inner context rest
  | .typedef span name type :: rest => do
    if rest.isEmpty then fail .lastStatement span
    inferBody (env.bindAlias name (← resolve env type span)) context rest
  | .code span _ :: rest => do
    if rest.isEmpty then fail .lastStatement span
    inferBody env context rest
  | .importTerms span _ _ :: rest => do
    if rest.isEmpty then fail .lastStatement span
    inferBody env context rest

/-- The schema of a declaration that is not recursive. -/
def inferDecl (env : TypeEnv) (topLevel : Bool) : Decl → Check Schema
  | .mk span p body => do
    let t ← inferExpr env body
    let (patternType, _) ← inferPattern env p
    unify patternType t span
    if topLevel then defaultContext t span
    generalize env t

/-- The bodies of a recursive group have the types of its members. -/
def inferBodies (env : TypeEnv) : List Decl → List Ty → Check Unit
  | .mk span _ body :: ds, t :: ts => do
    unify t (← inferExpr env body) span
    inferBodies env ds ts
  | _, _ => return

/-- The schemas of the declarations of a group, and the environment behind the group. -/
def inferGroup (env : TypeEnv) : Group → Check (List Schema × TypeEnv)
  | .single _ d => do
    let s ← inferDecl env false d
    return ([s], bindPattern env d.pattern s)
  | .recursive _ ds => do
    let (ts, inner) ← inferMembers env ds env
    inferBodies inner ds ts
    let schemas ← ts.mapM (generalize env)
    return (schemas, (ds.zip schemas).foldl (fun env e => bindMember env e.1 e.2) env)

end

end Check

/-! ## Checks with a state of their own -/

/-- The generalised schema of an expression. -/
def checkExpr (env : TypeEnv) (e : Expr) : Check Schema := do
  Check.generalize env (← Check.inferExpr env e)

/-- The schema of a declaration; at the top level an unknown context is the top-level one. -/
def checkDecl (env : TypeEnv) (topLevel : Bool) (d : Decl) : Check Schema :=
  Check.inferDecl env topLevel d

/-- The schemas of the declarations of a group. -/
def checkGroup (env : TypeEnv) (group : Group) : Check (List Schema) := do
  return (← Check.inferGroup env group).1

end VeriScript
