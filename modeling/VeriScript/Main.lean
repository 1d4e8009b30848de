import VeriScript.Console.Program

/-!
# The executable

Runs are functions of what is known of the files.  When a run asks for a path that is not known yet, the file
system is consulted and the step is run again; once a step is over, its output is printed and the files it
wrote are written.
-/

namespace VeriScript.Console

/-- What is at a path of the file system. -/
def consult (p : Path) : IO (Option Entry) := do
  let path := (← IO.currentDir) / p.render
  if ← path.isDir then return some .directory
  try
    match Text.decodeUtf8 (← IO.FS.readBinFile path).toList with
    | .ok s => return some (.text s)
    | .error fault => return some (.undecodable fault)
  catch _ => return none

/-- Run a step, consulting the file system as often as the step needs it. -/
partial def settle {α : Type} (w : World) (x : Run α) : IO (EStateM.Result Halt World α) := do
  match x w with
  | .error (.consult p) _ => settle { w with disk := w.disk.learn p (← consult p) } x
  | r => return r

/-- Write the files that a step wrote. -/
def writeBack (w : World) : IO Unit :=
  w.disk.written.reverse.forM fun p => do
    match w.disk.entry p with
    | .ok (some (.text s)) => IO.FS.writeFile p.render s
    | _ => return

/-- Print the output of a step and write its files. -/
def flush (w : World) : IO World := do
  let out ← IO.getStdout
  out.putStr w.output
  out.flush
  writeBack w
  return { w with output := "", disk := { w.disk with written := [] } }

/-- The status that an early end gives to the program. -/
def statusOf (halt : Halt) : IO UInt32 := do
  match halt with
  | .exit code => return UInt32.ofNat (code % 256).toNat
  | .error e =>
    (← IO.getStderr).putStrLn e.message
    return 1
  | halt =>
    (← IO.getStderr).putStrLn ((unexpectedText halt).getD "")
    return 1

/-- Interactive use with lines from the standard input. -/
partial def talk (ctx : Context) (w : World) : IO UInt32 := do
  let out ← IO.getStdout
  out.putStr prompt
  out.flush
  let line ← (← IO.getStdin).getLine
  if line.isEmpty then
    out.putStrLn farewell
    return 0
  match ← settle w (interactiveLine ctx line) with
  | .ok more w =>
    let w ← flush w
    if more then talk ctx w else return 0
  | .error halt w =>
    let _ ← flush w
    statusOf halt

/-- Do what a command line says. -/
def runArguments (args : Arguments) : IO UInt32 := do
  let cwd := absolutePath [] (← IO.currentDir).toString
  let options := args.options cwd (← (← IO.getStdout).isTty)
  let ctx : Context := ⟨options, none, .standard⟩
  let seed ← IO.rand 0 4294967295
  let draws (i : Nat) : Nat := (mixHash (hash seed) (hash i)).toNat
  match ← settle (.start options .unexplored cwd draws) (beginRun ctx args) with
  | .ok false w =>
    let _ ← flush w
    return 0
  | .ok true w =>
    let w ← flush w
    banner.forM fun line => IO.println line
    talk ctx w
  | .error halt w =>
    let _ ← flush w
    statusOf halt

end VeriScript.Console

/-- Run a command line. -/
def main (args : List String) : IO UInt32 := do
  match VeriScript.Console.parseArguments args with
  | .help =>
    IO.print VeriScript.Console.helpText
    return 0
  | .version =>
    IO.println VeriScript.Console.version
    return 0
  | .usage e =>
    IO.eprint e.report
    return 2
  | .run args => VeriScript.Console.runArguments args
