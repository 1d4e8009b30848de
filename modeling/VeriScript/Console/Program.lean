import VeriScript.Console.Arguments
import VeriScript.Console.Interactive

/-!
# The program

What a command line does (`main`), over the world of a run.

* `Arguments.options` — the options of a run (`options_from_args`).
* `beginRun` — everything but interactive use; it tells whether interactive use follows.
* `runProgram` — all of it, with the input given beforehand.
-/

namespace VeriScript.Console

/-- The options that a command line sets; only a terminal shows colours. -/
def Arguments.options (args : Arguments) (cwd : Path) (terminal : Bool) : Options :=
  { verbosity := args.verbosity
    showPosition := args.showPosition
    summaryFile := match args.summary with
      | some path => if path = "" then none else some (absolutePath cwd path).render
      | none => none
    summaryFormat := args.format
    useColor := !args.noColor && terminal
    debug := args.debug }

/-- Print the syntax tree of a script file; the status is zero if it can be read. -/
def showScript (path : String) : Run Int := fun w =>
  match parseFile path w with
  | .ok stmts w' => (do
      Run.printLine ("Parsed " ++ Text.decimalNat stmts.length ++ " statements:")
      Run.printLine (String.ofList (List.replicate 50 '='))
      (stmts.zipIdx 1).forM fun (s, n) => do
        Run.printLine ("\nStatement " ++ Text.decimalNat n ++ ":")
        Run.printLine (← Run.write s.tree.shown)
      return 0 : Run Int) w'
  | .error (.error e) w' => (do Run.printLine e.message; return 1 : Run Int) w'
  | .error halt w' => .error halt w'

/-- Run a script file; the status is zero if nothing went wrong. -/
def runScriptFile (ctx : Context) (path : String) : Run Int := fun w =>
  match runScript ctx path w with
  | .ok _ w' => .ok 0 w'
  | .error (.error e) w' => (do ctx.report .error e.message; return 1 : Run Int) w'
  | .error (.unopened fault _) w' | .error (.unentered fault _) w' =>
    (do
      ctx.report .error ("Error: cannot run '" ++ path ++ "': " ++ fault.reason)
      return 1 : Run Int) w'
  | .error halt w' => .error halt w'

/-- There is a file or a directory at a path. -/
def pathPresent (path : String) : Run Bool := do
  let w ← get
  match w.disk.present w.cwd path with
  | .ok b => return b
  | .error (.unknown p) => throw (.consult p)
  | .error (.fault _) => return false

/-- Do what a command line says, up to interactive use; `true` if that follows. -/
def beginRun (ctx : Context) (args : Arguments) : Run Bool := do
  match args.script.filter (· ≠ "") with
  | some path =>
    if !(← pathPresent path) then
      Run.printLine ("Error: Script file '" ++ path ++ "' does not exist")
      throw (.exit 1)
    if args.parse then throw (.exit (← showScript path))
    if !args.interactive then throw (.exit (← runScriptFile ctx path))
    match ← Run.anticipate (runScript ctx path) with
    | some e => ctx.report .error e.message
    | none => pure ()
    return true
  | none =>
    if args.interactive then return true
    printPart helpText
    return false

/-- Do what a command line says, with all the input there will be. -/
def runProgram (ctx : Context) (args : Arguments) (input : String) : Run Unit := do
  if ← beginRun ctx args then interact ctx (inputLines input)

end VeriScript.Console
