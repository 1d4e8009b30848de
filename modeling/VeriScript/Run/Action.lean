import VeriScript.Run.Command

/-!
# Actions

`runAction` (`run_action`) runs an action in the context at hand, with at most so many actions nested; `perform` has the
bound that the host sets.
-/

namespace VeriScript

/-- The action may run in the context at hand. -/
def requireContext (wanted : Option ContextKind) : Run Unit := do
  let actual := (← get).work.kind
  match wanted with
  | some kind => if kind = actual then return else Run.failAt (.wrongContext kind actual) none
  | none => return

/-- Run what a function gives for each item. -/
def runEach (run : RunAction) (ctx : Context) (fn : Value) : List Value → Run (List Value)
  | [] => return []
  | item :: items => do
    let v ← run ctx (← ctx.call fn item none)
    let vs ← runEach run ctx fn items
    return v :: vs

/-- Do a job, over the way actions inside it are run. -/
def Job.perform (run : RunAction) (ctx : Context) : Job → Run Value
  | .block env body => runBody run ctx env body
  | .yield v => return v
  | .forEach items fn => do return .array (← runEach run ctx fn items)
  | .command c args => performCommand run ctx c args
  | .contextName _ => do return .string (← get).work.kind.name

/-- Run an action, with at most `depth` actions nested. -/
def runAction : Nat → RunAction
  | 0, _, _ => throw .overflow
  | depth + 1, ctx, v =>
    match v with
    | .action job => do
      requireContext job.context
      job.perform (runAction depth) ctx
    | v => do Run.failAt (.notAction (v.shown (← Run.session).display)) none

/-- Run an action. -/
def perform : RunAction := fun ctx =>
  runAction ctx.host.actions ctx

end VeriScript
