import VeriScript.Proofs.Run.Agreement
import VeriScript.Proofs.Run.Congruence

/-!
# What holds of the steps of commands holds of actions

A relation between runs that holds of evaluation and is respected by the steps of commands, with actions run in two
ways that are related, holds of actions of every kind.

* `ActionCongruence` — the relation holds between evaluation, the actions that are run, and the steps of commands.
* `ActionCongruence.runBody`, `ActionCongruence.performCommand` — blocks, and commands that include no file.
* `ActionCongruence.perform` — jobs.
-/

namespace VeriScript

open Run (Prints)

/-- Whether a term can be shown does not depend on the display. -/
theorem Term.shown_map_eq {d d' : Display} (t : Term) :
    (t.shown d).map (fun _ => ()) = (t.shown d').map fun _ => () := by
  unfold Term.shown Text.written
  split <;> rfl

/-- Whether a value can be shown depends on the base of numbers only. -/
theorem Value.shown_map_eq {d d' : Display} (v : Value) (h : d.base = d'.base) :
    (v.shown d).map (fun _ => ()) = (v.shown d').map fun _ => () := by
  unfold Value.shown Text.written
  rw [h]
  split <;> rfl

abbrev Run.SelfRelated (C : (α : Type) → Run α → Run α → Prop) {α : Type} (x : Run α) : Prop :=
  C α x x

/-- The relation holds between evaluation in the two contexts, between the two ways of running actions, and between the
steps of commands.  The entries in the history of proofs have statuses of which `G` holds. -/
structure ActionCongruence (C : (α : Type) → Run α → Run α → Prop) (G : RecordKind → ProofStatus → Prop)
    (ctx ctx' : Context) (run run' : RunAction) : Prop extends EvalCongruence C ctx ctx' where
  act (v : Value) : C Value (run ctx v) (run' ctx' v)
  prints (x : Context → Run Unit) (hx : ∀ ctx, Prints (x ctx)) : C Unit (x ctx) (x ctx')
  shows (level : Level) (frame : String → String) (text : Display → Except Text.Fault String)
    (htext : ∀ d d', d.base = d'.base → (text d).map (fun _ => ()) = (text d').map fun _ => ()) :
    C Value (do ctx.print level (frame (← Run.write (text (← Run.session).display))); return .unit)
      (do ctx'.print level (frame (← Run.write (text (← Run.session).display))); return .unit)
  printEnv : C Unit (VeriScript.printEnv ctx) (VeriScript.printEnv ctx')
  draw (count : Nat) : Run.SelfRelated C (Run.draw count)
  fails {x y : Run Value} (hx : C Value x y) :
    C Value (do
      match ← Run.anticipate x with
      | some e =>
        ctx.print .info "== Anticipated failure message =="
        ctx.print .info e.message
        return .unit
      | none => Run.failAt .noFailure none)
    (do
      match ← Run.anticipate y with
      | some e =>
        ctx'.print .info "== Anticipated failure message =="
        ctx'.print .info e.message
        return .unit
      | none => Run.failAt .noFailure none)
  contextName : Run.SelfRelated C (do return Value.string (← get).work.kind.name)
  code (env : Env) (span : Span) (text : String) {x y : Run Value} (hx : C Value x y) :
    C Value (do
        let s ← Run.session
        let terms ← Run.orTermError span (parseTermDecls (s.merge env).terms none text)
        Run.setSession { s with terms := terms }
        x)
      (do
        let s ← Run.session
        let terms ← Run.orTermError span (parseTermDecls (s.merge env).terms none text)
        Run.setSession { s with terms := terms }
        y)
  enable (life : Lifecycle) : Run.SelfRelated C (do
    Run.setSession ((← Run.session).enable life)
    return Value.unit)
  changeDisplay (change : Display → Display) (hbase : ∀ d d', d.base = d'.base → (change d).base = (change d').base) :
    Run.SelfRelated C (VeriScript.changeDisplay change)
  defineTerm (name : String) (t : Term) : Run.SelfRelated C (do
    let s ← Run.session
    Run.setSession { s with terms := Table.insert s.terms name t }
    return Value.term t)
  parseFile (path : String) : Run.SelfRelated C (VeriScript.parseFile path)
  writeCoq (name term file : Value) :
    C Unit (VeriScript.writeCoq ctx name term file) (VeriScript.writeCoq ctx' name term file)
  openGoal (tactic : String) : Run.SelfRelated C (VeriScript.openGoal tactic)
  closeGoal (goal : Goal) {status : ProofStatus} (hstatus : G .goal status) (tactic : Tactic) (cex : Counterexample) :
    Run.SelfRelated C (VeriScript.closeGoal goal status tactic cex)
  simplifyGoal (tactic : String) : Run.SelfRelated C (do
    let goal ← VeriScript.openGoal tactic
    Run.setWork (.proof { goal with term := goal.term.simplify })
    return Value.unit)
  changeDraft (change : Draft → Draft) : Run.SelfRelated C (VeriScript.changeDraft change)
  runProof (script : Value) (t : Term) {f g : Goal × ProofStatus → Run Value}
    (hf : ∀ r, G .goal r.2 → C Value (f r) (g r)) :
    C Value (do f (← VeriScript.runProof run ctx script t)) (do g (← VeriScript.runProof run' ctx' script t))
  runSetup (setup : Value) : C Draft (VeriScript.runSetup run ctx setup) (VeriScript.runSetup run' ctx' setup)
  recordGoal (t : Term) (goal : Goal) {status : ProofStatus} (hstatus : G .goal status) :
    Run.SelfRelated C (VeriScript.recordGoal t goal status)
  recordSpec {spec : Spec} (hstatus : G .spec spec.status) (tactic : Option Tactic) :
    Run.SelfRelated C (VeriScript.recordSpec spec tactic)
  closed : ∀ status ∈ [.valid, .invalid, .tested, .admitted], G .goal status
  assumed : G .spec .assumed
  verified {status : ProofStatus} : G .goal status → status ≠ .invalid →
    G .spec (if status = .valid then .verified else status)

namespace ActionCongruence

variable {C : (α : Type) → Run α → Run α → Prop} {G : RecordKind → ProofStatus → Prop} {ctx ctx' : Context}
  {run run' : RunAction} (h : ActionCongruence C G ctx ctx' run run')
include h

theorem unit {x y : Run Unit} (hx : C Unit x y) : C Value (do x; return .unit) (do y; return .unit) :=
  h.bind hx fun _ => h.pure _

theorem orFail {α : Type} (r : Except RuntimeFault α) : C α (Run.orFail r) (Run.orFail r) :=
  h.orFailAt none r

theorem write (r : Except Text.Fault String) : C String (Run.write r) (Run.write r) :=
  h.orFail _

theorem forM {α : Type} {f g : α → Run Unit} (hf : ∀ a, C Unit (f a) (g a)) (items : List α) :
    C Unit (items.forM f) (items.forM g) := by
  induction items with
  | nil => exact h.pure ()
  | cons a items ih => exact h.bind (hf a) fun _ => ih

theorem print (level : Level) (text : String) : C Unit (ctx.print level text) (ctx'.print level text) :=
  h.prints (fun ctx => ctx.print level text) fun _ => .print _ _ _

/-! ## Blocks -/

theorem runBody (env : Env) (body : List Stmt) :
    C Value (VeriScript.runBody run ctx env body) (VeriScript.runBody run' ctx' env body) := by
  induction body generalizing env with
  | nil => exact h.failAt _ _
  | cons stmt rest ih =>
    cases stmt with
    | bind span p e =>
      refine h.bind (h.eval env e) fun action => h.bind (h.act action) fun result => ?_
      split
      · exact h.pure _
      · exact h.bind (h.orRuntimeError _) fun inner => ih inner
    | define span group => exact h.bind (h.define env [] group) fun inner => ih inner
    | code span text => exact h.code env span text (ih env)
    | typedef span name t => exact ih _
    | importTerms span file qualifier => exact h.failAt _ _

theorem runEach (fn : Value) (items : List Value) :
    C (List Value) (VeriScript.runEach run ctx fn items) (VeriScript.runEach run' ctx' fn items) := by
  induction items with
  | nil => exact h.pure _
  | cons item items ih =>
    refine h.bind (h.call fn item none) fun action => h.bind (h.act action) fun v => ?_
    exact h.bind ih fun _ => h.pure _

/-! ## Proofs and specifications -/

theorem proveTrivial : C Value VeriScript.proveTrivial VeriScript.proveTrivial := by
  refine h.bind (h.openGoal _) fun goal => ?_
  split
  · exact h.closeGoal goal (h.closed _ (by decide)) _ _
  · exact h.bind (h.write _) fun _ => h.failAt _ _

theorem quickcheck (count : Value) : C Value (VeriScript.quickcheck ctx count) (VeriScript.quickcheck ctx' count) := by
  refine h.bind (h.openGoal _) fun goal => h.bind (h.orFail _) fun n => h.bind (h.draw _) fun draws => ?_
  refine h.bind (h.orTermError _ _) fun outcome => ?_
  cases outcome with
  | inr assignment | inl tried => exact h.bind (h.print _ _) fun _ => h.closeGoal goal (h.closed _ (by decide)) _ _

theorem prove (script goal : Value) :
    C Value (VeriScript.prove run ctx script goal) (VeriScript.prove run' ctx' script goal) :=
  h.bind (h.orFail _) fun t => h.runProof script t fun r hr => h.bind (h.recordGoal t r.1 hr) fun _ => h.pure _

theorem provePrint (script goal : Value) :
    C Value (VeriScript.provePrint run ctx script goal) (VeriScript.provePrint run' ctx' script goal) := by
  refine h.bind (h.orFail _) fun t => h.runProof script t fun r hr => ?_
  dsimp only
  split
  · exact h.failAt _ _
  · exact h.bind (h.recordGoal t r.1 hr) fun _ => h.pure _

theorem verifySpec (name setup script : Value) :
    C Value (VeriScript.verifySpec run ctx name setup script) (VeriScript.verifySpec run' ctx' name setup script) := by
  refine h.bind (h.orFail _) fun name => h.bind (h.runSetup setup) fun draft => ?_
  refine h.runProof script draft.goal fun r hr => ?_
  dsimp only
  split
  · exact h.failAt _ _
  · rename_i hvalid
    refine h.bind (h.recordSpec (h.verified hr hvalid) _) fun _ => ?_
    exact h.bind (h.print _ _) fun _ => h.pure _

theorem assumeSpec (name setup : Value) :
    C Value (VeriScript.assumeSpec run ctx name setup) (VeriScript.assumeSpec run' ctx' name setup) :=
  h.bind (h.orFail _) fun _ => h.bind (h.runSetup setup) fun _ => h.bind (h.recordSpec h.assumed none) fun _ =>
    h.bind (h.print _ _) fun _ => h.pure _

/-! ## Commands -/

theorem performCommand (c : Command) (args : List Value)
    (hfile : ∀ path, c = .includeFile → args = [.string path] →
      C Unit (runFile run ctx path false) (runFile run' ctx' path false)) :
    C Value (VeriScript.performCommand run ctx c args) (VeriScript.performCommand run' ctx' c args) := by
  unfold VeriScript.performCommand
  split
  -- in the order of the commands in the definition, and last the wrong number of arguments
  · dsimp only
    split
    · exact h.unit (h.print _ _)
    · exact h.shows _ id _ fun _ _ => Value.shown_map_eq _
  · exact h.unit h.printEnv
  · exact h.bind (h.orFail _) fun key => h.unit (h.prints (printHelp · key) fun ctx => .session fun _ => .print _ _ _)
  · rename_i v
    cases v with
    | string path => exact h.unit (hfile path rfl rfl)
    | _ => exact h.failAt _ _
  · exact h.enable _
  · exact h.bind (h.orFail _) fun _ => h.unit (h.changeDisplay _ fun _ _ hbase => hbase)
  · refine h.bind (h.orFail _) fun n => ?_
    dsimp only
    split
    · exact h.failAt _ _
    · exact h.unit (h.changeDisplay _ fun _ _ _ => rfl)
  · exact h.bind (h.orFail _) fun _ => h.unit (h.changeDisplay _ fun _ _ hbase => hbase)
  · exact h.fails (h.act _)
  · exact h.bind (h.act _) fun _ => h.bind (h.print _ _) fun _ => h.pure _
  · exact h.bind (h.orFail _) fun _ => h.throw _
  · refine h.bind (h.orFail _) fun path => h.bind (h.parseFile path) fun stmts => h.unit ?_
    exact h.forM (fun s => h.bind (h.write _) fun _ => h.print _ _) stmts
  · exact h.bind (h.orFail _) fun _ => h.bind (h.orFail _) fun _ => h.pure _
  · exact h.bind (h.orFail _) fun t => h.shows _ id (t.shown ·) fun _ _ _ => t.shown_map_eq
  · exact h.bind (h.orFail _) fun _ => h.unit (h.print _ _)
  · exact h.bind (h.orFail _) fun name => h.bind (h.orFail _) fun t => h.defineTerm name t
  · exact h.prove _ _
  · exact h.provePrint _ _
  · exact h.verifySpec _ _ _
  · exact h.assumeSpec _ _
  · exact h.unit (h.prints (fun ctx => do ctx.print .info (summaryText .pretty (← Run.session).proofs))
      fun _ => .session fun _ => .print _ _ _)
  · exact h.unit (h.writeCoq _ _ _)
  · exact h.proveTrivial
  · refine h.bind (h.openGoal _) fun goal => h.bind (h.orFail _) fun _ => h.bind (h.print _ _) fun _ => ?_
    exact h.closeGoal goal (h.closed _ (by decide)) _ _
  · exact h.bind (h.openGoal _) fun goal => h.closeGoal goal (h.closed _ (by decide)) _ _
  · exact h.simplifyGoal _
  · refine h.bind (h.openGoal _) fun goal => ?_
    exact h.shows _ ("Goal: " ++ ·) (goal.term.shown ·) fun _ _ _ => goal.term.shown_map_eq
  · exact h.quickcheck _
  · exact h.bind (h.orFail _) fun _ => h.bind (h.orFail _) fun _ => h.bind (h.changeDraft _) fun _ => h.pure _
  · exact h.bind (h.orFail _) fun _ => h.unit (h.changeDraft _)
  · exact h.bind (h.orFail _) fun _ => h.unit (h.changeDraft _)
  · exact h.failAt _ _

theorem perform (job : Job)
    (hfile : ∀ path, job = .command .includeFile [.string path] →
      C Unit (runFile run ctx path false) (runFile run' ctx' path false)) :
    C Value (job.perform run ctx) (job.perform run' ctx') := by
  cases job with
  | block env body => exact h.runBody env body
  | yield v => exact h.pure _
  | forEach items fn => exact h.bind (h.runEach fn items) fun _ => h.pure _
  | command c args =>
    refine h.performCommand c args fun path hc hargs => hfile path ?_
    rw [hc, hargs]
  | contextName context => exact h.contextName

end ActionCongruence

end VeriScript
