import VeriScript.Run.Action

/-!
# Running scripts

* `World.start` — the world before anything has been run.
* `runStatementText`, `runProgramText`, `runScript` — run what is typed, a text of statements, or a file
  (`run_statement`, `run_program`, `process_file`).
* `inNewSession` — run something in a session of its own.
-/

namespace VeriScript

/-- A new session among some files, with random numbers to draw. -/
def World.start (options : Options) (disk : Disk) (cwd : Path) (draws : Nat → Nat) : World :=
  ⟨.initial options, "", disk, cwd, .topLevel, draws⟩

/-- Where texts that are typed come from. -/
def typedFile : String := "<input>"

/-- Run one statement as it is typed. -/
def runStatementText (ctx : Context) (printBinds : Bool) (text : String) : Run Unit := do
  runStmt perform ctx printBinds (← Run.orParseError (parseStatement typedFile text))

/-- Run the statements of a text; nothing is run if the text cannot be read. -/
def runProgramText (ctx : Context) (file : String) (printBinds : Bool) (text : String) : Run Unit := do
  runStmts perform ctx printBinds (← Run.orParseError (parseProgram file text))

/-- Run a script file and its `main`. -/
def runScript (ctx : Context) (path : String) : Run Unit :=
  runFile perform ctx path true

/-- Run something in a new session and give that session; the session before comes back. -/
def inNewSession (options : Options) (x : Run Unit) : Run Session := fun w =>
  match x { w with session := .initial options } with
  | .ok _ w' => .ok w'.session { w' with session := w.session }
  | .error halt w' => .error halt { w' with session := w.session }

/-- Print the schema of an expression. -/
def printType (ctx : Context) (text : String) : Run Unit := do
  let e ← Run.orParseError (parseExpression typedFile text)
  let schema ← ctx.check (checkExpr (← Run.session).typeEnv e)
  Run.printLine (← Run.write schema.shown)

/-- Print the syntax tree of a statement. -/
def printTree (text : String) : Run Unit := do
  let s ← Run.orParseError (parseStatement typedFile text)
  Run.printLine (← Run.write s.tree.shown)

end VeriScript
