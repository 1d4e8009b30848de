import VeriScript.Run.Error
import VeriScript.Session.Basic
import VeriScript.Session.Options

/-!
# The world of a run

* `World` — what a run changes: the session, the output, the files, the working directory, the work at hand, and
  the random numbers still to be drawn.
* `Host` — the machine that a run is on: how deep it lets calls be nested, and which directories it can enter.
* `Context` — what a part of a run is told: the options, the position its output belongs to, and the host
  (`make_run_context`).
* `Run` — computations that change the world and may end early; what they changed before the end stays.
-/

namespace VeriScript

/-- The kind of context that actions run in, with what is worked on there. -/
inductive Work where
  | topLevel
  | proof (goal : Goal)
  | setup (draft : Draft)
  deriving Repr

def Work.kind : Work → ContextKind
  | .topLevel => .topLevel
  | .proof _ => .proofScript
  | .setup _ => .setup

structure World where
  session : Session
  /-- What has been printed. -/
  output : String
  disk : Disk
  cwd : Path
  work : Work
  /-- The random numbers that tests draw, one after another. -/
  draws : Nat → Nat

structure Host where
  /-- The number of calls that may be nested within a call. -/
  calls : Nat
  /-- The number of actions that may be nested. -/
  actions : Nat
  /-- Why the system refuses to enter a directory, if it does. -/
  refusal : Disk → Path → Option DiskFault

/-- A host that refuses paths of more bytes than systems take. -/
def Host.standard : Host where
  calls := 2000
  actions := 5000
  refusal _ p := if p.render.utf8ByteSize < 4096 then none else some .nameTooLong

structure Context where
  options : Options
  position : Option Span
  host : Host

abbrev Run (α : Type) := EStateM Halt World α

namespace Run

variable {α : Type}

def session : Run Session := do
  return (← get).session

def setSession (s : Session) : Run Unit :=
  modify fun w => { w with session := s }

def setWork (work : Work) : Run Unit :=
  modify fun w => { w with work := work }

/-! ## Errors -/

/-- Fail with an error of the script, if its message can be written. -/
def fail (e : ScriptError) : Run α :=
  throw e.halt

/-- Fail at a position. -/
def failAt (fault : RuntimeFault) (span : Option Span) : Run α :=
  fail (.runtime ⟨fault, span, []⟩)

/-- The result of a computation that may fail, its failure put at a position. -/
def orFailAt (span : Option Span) : Except RuntimeFault α → Run α
  | .ok a => return a
  | .error fault => failAt fault span

/-- The result of a computation that may fail, its failure without a position. -/
def orFail (r : Except RuntimeFault α) : Run α :=
  orFailAt none r

/-- A text that can be written. -/
def write (r : Except Text.Fault String) : Run String :=
  orFail (r.mapError .unwritable)

def orRuntimeError : Except RuntimeError α → Run α
  | .ok a => return a
  | .error e => fail (.runtime e)

def orTermError (span : Option Span) : Except TermFault α → Run α
  | .ok a => return a
  | .error fault => fail (.term ⟨fault, span⟩)

def orParseError : Except ParseError α → Run α
  | .ok a => return a
  | .error e => fail (.parse e)

/-- An error that passes through a function takes its name along. -/
def through (name : Option String) (x : Run α) : Run α := fun w =>
  match x w with
  | .error (.error (.runtime e)) w' =>
    match name with
    | some n => .error (.error (.runtime (e.through n))) w'
    | none => .error (.error (.runtime e)) w'
  | r => r

/-- Nesting that is too deep is an error of the statement at `span`. -/
def guardDepth (span : Span) (x : Run α) : Run α := fun w =>
  match x w with
  | .error .overflow w' => .error (.error (.runtime ⟨.stackOverflow, some span, []⟩)) w'
  | r => r

/-- The error of the script that a computation ends with, if it ends with one. -/
def anticipate (x : Run α) : Run (Option ScriptError) := fun w =>
  match x w with
  | .ok _ w' => .ok none w'
  | .error (.error e) w' => .ok (some e) w'
  | .error halt w' => .error halt w'

/-! ## Work and place -/

/-- Do some work and go back to what was worked on before, however it ends. -/
def withWork (work : Work) (x : Run α) : Run Work := fun w =>
  match x { w with work := work } with
  | .ok _ w' => .ok w'.work { w' with work := w.work }
  | .error halt w' => .error halt { w' with work := w.work }

/-- Make a directory the working directory, if the system lets it be entered. -/
def enter (host : Host) (p : Path) : Run Unit := do
  let w ← get
  match host.refusal w.disk p with
  | some fault => throw (.unentered fault p)
  | none => set { w with cwd := p }

/-- Go back to a directory, however a run ended.  If the system refuses that, the run ends with the refusal, and the
working directory stays what it is. -/
def goBack (host : Host) (home : Path) : EStateM.Result Halt World α → EStateM.Result Halt World α
  | .ok a w => (do enter host home; return a : Run α) w
  | .error halt w => (do enter host home; throw halt : Run α) w

/-- Do something in a directory and go back. -/
def inDirectory (host : Host) (p : Path) (x : Run α) : Run α := do
  let home := (← get).cwd
  enter host p
  fun w => goBack host home (x w)

/-- Draw random numbers; the next ones are drawn from behind them. -/
def draw (count : Nat) : Run (Nat → Nat) :=
  modifyGet fun w => (w.draws, { w with draws := fun i => w.draws (count + i) })

/-! ## Output -/

/-- Print a line. -/
def printLine (text : String) : Run Unit :=
  modify fun w => { w with output := w.output ++ text ++ "\n" }

end Run

namespace Context

/-- Print a line if it is important enough. -/
def report (ctx : Context) (level : Level) (text : String) : Run Unit :=
  if level.rank ≤ ctx.options.verbosity then Run.printLine text else return

/-- A text below the position it belongs to. -/
def located (ctx : Context) (text : String) : String :=
  match ctx.options.showPosition, ctx.position with
  | true, some span =>
    "[output] at " ++ span.render ++ ":\n" ++ Text.joinLines ((Text.splitLines text).map ("\t" ++ ·))
  | _, _ => text

/-- Print the output of a script. -/
def print (ctx : Context) (level : Level) (text : String) : Run Unit :=
  ctx.report level (ctx.located text)

/-- Print a line of the trace. -/
def trace (ctx : Context) (text : String) : Run Unit :=
  if ctx.options.debug then Run.printLine ("[debug] " ++ text) else return

end Context

end VeriScript
