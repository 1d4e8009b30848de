import VeriScript.Primitive.Table
import VeriScript.Run.Proof
import VeriScript.Term.Coq

/-!
# Commands

`performCommand` is what a command (`vsl_print`, `include_impl`, …) does when its action is run, over the way other
actions are run.
-/

namespace VeriScript

/-- Print every name with its schema. -/
def printEnv (ctx : Context) : Run Unit := do
  let s ← Run.session
  (Table.sortedNames s.values).forM fun name => do
    match Table.get? s.types name with
    | some schema => ctx.print .info (name ++ " : " ++ (← Run.write schema.shown))
    | none => ctx.print .info name

/-- Print the documentation of a primitive. -/
def printHelp (ctx : Context) (key : String) : Run Unit := do
  ctx.print .info ((Table.get? (← Run.session).docs key).getD ("No help for " ++ key))

/-- Change the display of values. -/
def changeDisplay (change : Display → Display) : Run Unit := do
  let s ← Run.session
  Run.setSession { s with display := change s.display }

/-- Export a term as a definition of Coq. -/
def writeCoq (ctx : Context) (name term file : Value) : Run Unit := do
  let path ← Run.orFail (file.expectString "write_coq_term")
  let name ← Run.orFail (name.expectString "write_coq_term")
  let t ← Run.orFail (term.expectTerm "write_coq_term")
  let text ← Run.write (Text.written t.numerals (coqPreamble ++ "\n" ++ t.coqDefinition name))
  writeFile path text fun f => do
    ctx.print .error ("write_coq_term: cannot write " ++ path)
    Run.failAt (.unwritableExport path f.reason) none

/-- What a command does and gives.  The time that `time` reports is left open: a run sees no clock. -/
def performCommand (run : RunAction) (ctx : Context) (c : Command) (args : List Value) : Run Value := do
  match c, args with
  | .print, [v] =>
    match v with
    | .string s => ctx.print .info s
    | v => ctx.print .info (← Run.write (v.shown (← Run.session).display))
    return .unit
  | .env, [] =>
    printEnv ctx
    return .unit
  | .help, [v] =>
    printHelp ctx (← Run.orFail (v.expectString c.name))
    return .unit
  | .includeFile, [v] =>
    runFile run ctx (← Run.orFail (v.expectString c.name)) false
    return .unit
  | .enable life, [] =>
    Run.setSession ((← Run.session).enable life)
    return .unit
  | .setAscii, [v] =>
    let b ← Run.orFail (v.expectBool c.name)
    changeDisplay fun d => { d with ascii := b }
    return .unit
  | .setBase, [v] =>
    let n ← Run.orFail (v.expectInt c.name)
    if ¬[2, 8, 10, 16].contains n then Run.failAt (.unsupported c.name n) none
    changeDisplay fun d => { d with base := n }
    return .unit
  | .setColor, [v] =>
    let b ← Run.orFail (v.expectBool c.name)
    changeDisplay fun d => { d with color := b }
    return .unit
  | .fails, [action] =>
    match ← Run.anticipate (run ctx action) with
    | some e =>
      ctx.print .info "== Anticipated failure message =="
      ctx.print .info e.message
      return .unit
    | none => Run.failAt .noFailure none
  | .time, [action] =>
    let v ← run ctx action
    ctx.print .info "Time: _s"
    return v
  | .exit, [v] => throw (.exit (← Run.orFail (v.expectInt c.name)))
  | .dumpFile, [v] =>
    let stmts ← parseFile (← Run.orFail (v.expectString c.name))
    stmts.forM fun s => do ctx.print .info (← Run.write s.tree.shown)
    return .unit
  | .freshSymbolic, [name, type] =>
    let name ← Run.orFail (name.expectString c.name)
    return .term (.var (← Run.orFail (type.expectTermType c.name)) name)
  | .printTerm, [v] =>
    let t ← Run.orFail (v.expectTerm c.name)
    ctx.print .info (← Run.write (t.shown (← Run.session).display))
    return .unit
  | .printType, [v] =>
    ctx.print .info (← Run.orFail (v.expectTerm c.name)).type.name
    return .unit
  | .define, [name, v] =>
    let name ← Run.orFail (name.expectString c.name)
    let t ← Run.orFail (v.expectTerm c.name)
    let s ← Run.session
    Run.setSession { s with terms := Table.insert s.terms name t }
    return .term t
  | .prove, [script, goal] => prove run ctx script goal
  | .provePrint, [script, goal] => provePrint run ctx script goal
  | .verifySpec, [name, setup, script] => verifySpec run ctx name setup script
  | .assumeSpec, [name, setup] => assumeSpec run ctx name setup
  | .summarize, [] =>
    ctx.print .info (summaryText .pretty (← Run.session).proofs)
    return .unit
  | .writeCoq, [name, term, file] =>
    writeCoq ctx name term file
    return .unit
  | .trivial, [] => proveTrivial
  | .concede, [reason] =>
    let goal ← openGoal c.name
    ctx.print .warn ("WARNING: admitting goal: " ++ (← Run.orFail (reason.expectString c.name)))
    closeGoal goal .admitted .concede []
  | .assumeValid, [] => closeGoal (← openGoal c.name) .admitted .assumeValid []
  | .goalEval, [] =>
    let goal ← openGoal c.name
    Run.setWork (.proof { goal with term := goal.term.simplify })
    return .unit
  | .printGoal, [] =>
    let goal ← openGoal c.name
    ctx.print .info ("Goal: " ++ (← Run.write (goal.term.shown (← Run.session).display)))
    return .unit
  | .quickcheck, [count] => quickcheck ctx count
  | .specVar, [name, type] =>
    let name ← Run.orFail (name.expectString c.name)
    let t : Term := .var (← Run.orFail (type.expectTermType c.name)) name
    changeDraft fun d => { d with vars := d.vars ++ [t] }
    return .term t
  | .specPre, [v] =>
    let t ← Run.orFail (v.expectBit c.name)
    changeDraft fun d => { d with pre := d.pre ++ [t] }
    return .unit
  | .specPost, [v] =>
    let t ← Run.orFail (v.expectBit c.name)
    changeDraft fun d => { d with post := d.post ++ [t] }
    return .unit
  | c, args => Run.failAt (.arity c.name c.arity args.length) none

end VeriScript
