import VeriScript.Proof.Summary
import VeriScript.Run.Eval
import VeriScript.Script.Tree
import VeriScript.Typing.Infer

/-!
# Statements and script files

Statements are run over the way actions are run, since an action may run statements in turn.

* `runBody` — the statements of a block (`interpret_stmts`).
* `nextSession` — the session that a statement at the top level leads to (`dispatch_stmt`).
* `runStmt` — a statement at the top level (`interpret_stmt`).
* `runFile` — the statements of a file, in the directory of the file (`interpret_file`).
-/

namespace VeriScript

/-- How an action is run in a context. -/
abbrev RunAction := Context → Value → Run Value

/-- Check a script and trace what is visited. -/
def Context.check {α : Type} (ctx : Context) (x : Check α) : Run α := do
  let traceVisits (st : CheckState) : Run Unit :=
    if ctx.options.debug then st.visited.reverse.forM fun kind => Run.printLine ("Checking: " ++ kind)
    else return
  match x.run .initial with
  | .ok a st => do
    traceVisits st
    return a
  | .error e st => do
    traceVisits st
    Run.fail (.type e)

/-! ## Blocks -/

/-- Run the statements of a block; the last one gives the result. -/
def runBody (run : RunAction) (ctx : Context) : Env → List Stmt → Run Value
  | _, [] => Run.failAt .emptyBlock none
  | env, .bind _ p e :: rest => do
    let action ← ctx.eval env e
    let result ← run ctx action
    if rest.isEmpty && p.isWildcard then return result
    else runBody run ctx (← Run.orRuntimeError (env.bindPattern p none result)) rest
  | env, .define _ group :: rest => do
    runBody run ctx (← evalGroup ctx.call ctx env [] group) rest
  | env, .code span text :: rest => do
    let s ← Run.session
    let terms ← Run.orTermError span (parseTermDecls (s.merge env).terms none text)
    Run.setSession { s with terms := terms }
    runBody run ctx env rest
  | env, .typedef _ name t :: rest => runBody run ctx (.typedef name t :: env) rest
  | _, .importTerms span _ _ :: _ => Run.failAt .blockImport span

/-! ## The top level -/

/-- An expression behind a pattern: the type written on the pattern is that of the block's result. -/
def Pattern.annotate (p : Pattern) (span : Span) (e : Expr) : Expr :=
  match p.declaredType with
  | some t => .typed span e (.block (.context .topLevel) t)
  | none => e

/-- The result of a value at the top level, and its type: a block of the top level is run, any other value stays as
it is.  A block type that lacks a parameter fails when the parameter is looked at. -/
def topLevelResult (run : RunAction) (ctx : Context) (t : Ty) (value : Value) : Run (Value × Ty) :=
  match t with
  | .con "Block" [] => Run.failAt (.unwritable .missing) none
  | .con "Block" (.con "TopLevel" _ :: rest) => do
    let result ← run ctx value
    match rest with
    | t :: _ => return (result, t)
    | [] => Run.failAt (.unwritable .missing) none
  | t => return (value, t)

/-- Print a result that has no name, and the type of a function. -/
def printResult (ctx : Context) (printBinds : Bool) (p : Pattern) (result : Value) (t : Ty) : Run Unit := do
  if printBinds && p.isWildcard && !result.isUnit then
    ctx.print .info (← Run.write (result.shown (← Run.session).display))
  if t.isFunction then
    let name := match p.names with
      | [name] => name
      | _ => "it"
    ctx.print .info (name ++ " : " ++ (← Run.write t.shown))

/-- The session with the result of an expression. -/
def bindResult (run : RunAction) (ctx : Context) (printBinds : Bool) (span : Span) (p : Pattern) (e : Expr) :
    Run Session := do
  let e := p.annotate span e
  let schema ← ctx.check (checkDecl (← Run.session).typeEnv true (.mk span (.wildcard span none) e))
  if !schema.vars.isEmpty then Run.fail (.type ⟨.notMonomorphic schema, span⟩)
  let value ← ctx.eval [] e
  let (result, resultType) ← topLevelResult run ctx schema.type value
  printResult ctx printBinds p result resultType
  Run.orRuntimeError ((← Run.session).bindPattern p (some (.mono resultType)) result)

/-- The session with the terms of a file. -/
def importTerms (span : Span) (file : String) (qualifier : Option String) : Run Session := do
  let w ← get
  match w.disk.read w.cwd file with
  | .ok (.ok text) =>
    let terms ← Run.orTermError span (parseTermDecls w.session.terms qualifier text)
    return { w.session with terms := terms }
  | .ok (.error fault) => throw (.undecodable fault)
  | .error (.fault f) => Run.failAt (.unreadableImport file f.reason) span
  | .error (.unknown p) => throw (.consult p)

/-- The session with what a statement binds. -/
def stmtSession (run : RunAction) (ctx : Context) (printBinds : Bool) : Stmt → Run Session
  | .bind span p e => bindResult run ctx printBinds span p e
  | .define _ group => do
    let schemas ← ctx.check (checkGroup (← Run.session).typeEnv group)
    let env ← evalGroup ctx.call ctx [] schemas group
    return (← Run.session).merge env
  | .code span text => do
    let s ← Run.session
    return { s with terms := ← Run.orTermError span (parseTermDecls s.terms none text) }
  | .importTerms span file qualifier => importTerms span file qualifier
  | .typedef span name t => do
    let s ← Run.session
    match t.resolve s.aliases with
    | .ok t => return s.addAlias name t
    | .error fault => Run.fail (.type ⟨fault, span⟩)

/-- The session that a statement at the top level leads to.  On the way there, only the actions that it runs change
the session. -/
def nextSession (run : RunAction) (ctx : Context) (printBinds : Bool) (s : Stmt) : Run Session := do
  ctx.trace ("Statement: " ++ s.kind ++ " at " ++ s.span.render)
  stmtSession run ctx printBinds s

/-- Run a statement at the top level. -/
def runStmt (run : RunAction) (ctx : Context) (printBinds : Bool) (s : Stmt) : Run Unit :=
  Run.guardDepth s.span do Run.setSession (← nextSession run ctx printBinds s)

/-- Run statements one after another; their output belongs to their positions. -/
def runStmts (run : RunAction) (ctx : Context) (printBinds : Bool) : List Stmt → Run Unit
  | [] => return
  | s :: rest => do
    runStmt run { ctx with position := some s.span } printBinds s
    runStmts run ctx printBinds rest

/-! ## Files -/

/-- The statements of a file. -/
def parseFile (path : String) : Run (List Stmt) := do
  let w ← get
  match w.disk.read w.cwd path with
  | .ok (.ok text) => Run.orParseError (parseProgram path text)
  | .ok (.error fault) => Run.fail (.parse (.undecodable path fault))
  | .error (.fault .missing) => Run.fail (.parse (.missingFile path))
  | .error (.fault f) => throw (.unopened f path)
  | .error (.unknown p) => throw (.consult p)

/-- Run `main` if the session has it. -/
def runMain (run : RunAction) (ctx : Context) : Run Unit := do
  match Table.get? (← Run.session).values "main" with
  | some v =>
    let _ ← run ctx v
    return
  | none => return

/-- Write a text to a file. -/
def writeFile (path text : String) (fault : DiskFault → Run Unit) : Run Unit := do
  let w ← get
  match w.disk.write w.cwd path text with
  | .ok disk => set { w with disk := disk }
  | .error (.fault f) => fault f
  | .error (.unknown p) => throw (.consult p)

/-- Write the summary of the proofs if the options ask for it. -/
def writeSummary (ctx : Context) : Run Unit := do
  match ctx.options.summaryFile with
  | some path =>
    let text := summaryText ctx.options.summaryFormat (← Run.session).proofs
    writeFile path (text ++ "\n") fun f => Run.failAt (.unwritableSummary path f.reason) none
  | none => return

/-- Run the statements of a file in the directory of the file, and `main` behind them if wanted. -/
def runFile (run : RunAction) (ctx : Context) (path : String) (withMain : Bool) : Run Unit := do
  let stmts ← parseFile path
  Run.inDirectory ctx.host (absolutePath (← get).cwd path).dropLast do
    runStmts run ctx false stmts
    if withMain then runMain run ctx
  writeSummary ctx

end VeriScript
