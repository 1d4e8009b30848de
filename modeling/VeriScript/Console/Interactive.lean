import VeriScript.Run.Program

/-!
# Interactive use

Lines are statements, or commands that start with a colon.

* `colonCommand` — a command (`run_repl_command`); it tells whether to go on.
* `interactiveLine` — any line; errors are printed, and the next line goes on from there.
* `interact` — a list of lines (`run_interactive_mode`).
-/

namespace VeriScript.Console

/-- The name and version of the program. -/
def version : String := "VSL v0.3.0"

/-- What interactive use starts with. -/
def banner : List String :=
  [version ++ " - Interactive Mode", "Type ':quit' to quit, ':help' for commands", ""]

/-- What stands before every line. -/
def prompt : String := "vsl> "

/-- What is printed when there are no more lines. -/
def farewell : String := "\nGoodbye!"

def commandHelp : List String :=
  ["REPL Commands:",
   "  :env              - Show every name in scope with its type",
   "  :type <expr>      - Show the type of an expression",
   "  :help <name>      - Show the documentation of a primitive",
   "  :parse <stmt>     - Show the syntax tree of a statement",
   "  :quit             - Exit REPL",
   "",
   "Statements:",
   "  let x = 5;                 - Value binding",
   "  let f n = n * 2;           - Function definition",
   "  t <- fresh_symbolic \"t\" \x7b| Integer |\x7d;",
   "                             - Run an action and bind its result",
   "  print (f 4);               - Run an action"]

/-- A command and its argument: the text before the first space, and the text behind it without blanks at
its ends. -/
def splitCommand (line : String) : String × String :=
  let cs := line.toList
  (String.ofList (cs.takeWhile (· != ' ')),
   Text.trim (String.ofList ((cs.dropWhile (· != ' ')).drop 1)))

/-- Carry out a command; `false` ends interactive use. -/
def colonCommand (ctx : Context) (line : String) : Run Bool := do
  let (command, argument) := splitCommand line
  match command with
  | ":quit" | ":q" => return false
  | ":env" => runStatementText ctx true "env"
  | ":type" => printType ctx argument
  | ":help" =>
    if argument = "" then commandHelp.forM Run.printLine
    else
      let _ ← perform ctx (.action (.command .help [.string argument]))
  | ":parse" => printTree argument
  | _ => Run.printLine ("Unknown command " ++ command ++ ", try :help")
  return true

/-- The message of the system for an access to a path that failed. -/
def systemMessage (fault : DiskFault) (path : String) : String :=
  "[Errno " ++ Text.decimalNat fault.number ++ "] " ++ fault.reason ++ ": " ++ Text.treeText path

/-- The message for an end that is no error of the script; `none` if it ends everything. -/
def unexpectedText : Halt → Option String
  | .unopened fault path => some (systemMessage fault path)
  | .unentered fault p => some (systemMessage fault p.render)
  | .unwritable fault _ => some fault.message
  | .undecodable fault => some fault.message
  | .overflow => some "maximum recursion depth exceeded"
  | .error _ | .exit _ | .consult _ => none

/-- Print errors and go on. -/
def recover (x : Run Bool) : Run Bool := fun w =>
  match x w with
  | .ok b w' => .ok b w'
  | .error (.error e) w' => (do Run.printLine e.message; return true : Run Bool) w'
  | .error halt w' =>
    match unexpectedText halt with
    | some text => (do Run.printLine ("Unexpected error: " ++ text); return true : Run Bool) w'
    | none => .error halt w'

/-- One line of interactive use; `false` ends it. -/
def interactiveLine (ctx : Context) (line : String) : Run Bool :=
  let line := Text.trim line
  if line = "" then return true
  else recover do
    if line.toList.head? = some ':' then colonCommand ctx line
    else
      runStatementText ctx true line
      return true

/-- Print without ending the line. -/
def printPart (text : String) : Run Unit :=
  modify fun w => { w with output := w.output ++ text }

/-- Lines until one ends it or there are no more. -/
def interactLines (ctx : Context) : List String → Run Unit
  | [] => do
    printPart prompt
    Run.printLine farewell
  | line :: lines => do
    printPart prompt
    if ← interactiveLine ctx line then interactLines ctx lines

/-- Interactive use from start to end. -/
def interact (ctx : Context) (lines : List String) : Run Unit := do
  banner.forM Run.printLine
  interactLines ctx lines

/-- The lines of an input; what follows the last line feed is a line only if it is not empty. -/
def inputLines (input : String) : List String :=
  let lines := Text.splitLines input
  if lines.getLast? = some "" then lines.dropLast else lines

end VeriScript.Console
