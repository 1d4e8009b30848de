import VeriScript.Proofs.Run.Evaluation

/-!
# Goals are closed once

A proof script runs tactics, one after another, in whatever way blocks, loops and functions make it.  The first of
them to close the goal is the last one that completes: every tactic behind it fails, and nothing in a proof script
goes on behind a failure.

* `TacticRun`, `logAction` — actions in a proof script, with a log of the tactics that are run.
* `TacticRun.Step`, `performCommand_step` — all that one tactic can do to a goal.
* `Follow` — tactics that lead from one goal to another; `Follow.of_closed` and `Follow.last_closes` say what comes
  behind the one that closes the goal, and where it stands.
* `Logs` — a run and its log; one rule for each step of a run, so that every action has a log (`logAction_logs`).
* `goal_closed_once` — the log of a proof script.
-/

namespace VeriScript

open Run (Ends ends_bind Quiet)

/-! ## The log of a proof script -/

/-- A tactic that was run: the work at hand before it and behind it, and whether it completed. -/
structure TacticRun where
  command : Command
  args : List Value
  before : Work
  after : Work
  completed : Bool

/-- The tactic by which a command closes the goal at hand. -/
def Command.closes? : Command → Option Tactic
  | .trivial => some .trivial
  | .concede => some .concede
  | .assumeValid => some .assumeValid
  | .quickcheck => some .quickcheck
  | _ => none

/-- The world with the tactics that have been run, the first one first. -/
structure Logbook where
  world : World
  log : List TacticRun

abbrev Logged (α : Type) := EStateM Halt Logbook α

section
variable {α : Type}

/-- The outcome of a run, with a log. -/
def withLog (log : List TacticRun) : EStateM.Result Halt World α → EStateM.Result Halt Logbook α
  | .ok a w => .ok a ⟨w, log⟩
  | .error halt w => .error halt ⟨w, log⟩

def Run.completes (x : Run α) (w : World) : Bool :=
  match x w with
  | .ok _ _ => true
  | .error _ _ => false

def Logged.lift (x : Run α) : Logged α := fun b =>
  withLog b.log (x b.world)

end

/-- No action can be run. -/
def noActions : RunAction := fun _ _ => throw .overflow

/-- Run a tactic and enter it in the log.  Tactics run no actions of their own. -/
def logTactic (ctx : Context) (c : Command) (args : List Value) : Logged Value := fun b =>
  let x := performCommand noActions ctx c args
  withLog (b.log ++ [⟨c, args, b.world.work, (x.after b.world).work, x.completes b.world⟩]) (x b.world)

def logBody (run : Context → Value → Logged Value) (ctx : Context) : Env → List Stmt → Logged Value
  | _, [] => .lift (Run.failAt .emptyBlock none)
  | env, .bind _ p e :: rest => do
    let action ← Logged.lift (ctx.eval env e)
    let result ← run ctx action
    if rest.isEmpty && p.isWildcard then return result
    else logBody run ctx (← Logged.lift (Run.orRuntimeError (env.bindPattern p none result))) rest
  | env, .define _ group :: rest => do
    logBody run ctx (← Logged.lift (evalGroup ctx.call ctx env [] group)) rest
  | env, .code span text :: rest => do
    let s ← Logged.lift Run.session
    let terms ← Logged.lift (Run.orTermError span (parseTermDecls (s.merge env).terms none text))
    Logged.lift (Run.setSession { s with terms := terms })
    logBody run ctx env rest
  | env, .typedef _ name t :: rest => logBody run ctx (.typedef name t :: env) rest
  | _, .importTerms span _ _ :: _ => .lift (Run.failAt .blockImport span)

def logEach (run : Context → Value → Logged Value) (ctx : Context) (fn : Value) : List Value → Logged (List Value)
  | [] => return []
  | item :: items => do
    let v ← run ctx (← Logged.lift (ctx.call fn item none))
    let vs ← logEach run ctx fn items
    return v :: vs

def Job.log (run : Context → Value → Logged Value) (ctx : Context) : Job → Logged Value
  | .block env body => logBody run ctx env body
  | .yield v => return v
  | .forEach items fn => do return .array (← logEach run ctx fn items)
  | .command c args => logTactic ctx c args
  | .contextName _ => .lift do return .string (← get).work.kind.name

/-- Run an action of a proof script. -/
def logAction : Nat → Context → Value → Logged Value
  | 0, _, _ => throw .overflow
  | depth + 1, ctx, v =>
    match v with
    | .action job => do
      Logged.lift (requireContext job.context)
      job.log (logAction depth) ctx
    | v => .lift do Run.failAt (.notAction (v.shown (← Run.session).display)) none

/-! ## What a tactic can do -/

/-- All that a tactic can do: fail and leave the goal as it is, work on an open goal, or close an open goal. -/
inductive TacticRun.Step (g : Goal) : TacticRun → Goal → Prop
  | failed {c : Command} {args : List Value} : Step g ⟨c, args, .proof g, .proof g, false⟩ g
  | worked {c : Command} {args : List Value} {g' : Goal} (before : g.status = none) (after : g'.status = none)
    (closes : c.closes? = none) : Step g ⟨c, args, .proof g, .proof g', true⟩ g'
  | closed {c : Command} {args : List Value} {status : ProofStatus} {tactic : Tactic} {cex : Counterexample}
    (before : g.status = none) (closes : c.closes? = some tactic) :
    Step g ⟨c, args, .proof g, .proof (g.close status tactic cex), true⟩ (g.close status tactic cex)

theorem TacticRun.Step.after_eq {e : TacticRun} {g g1 g' : Goal} (h : e.Step g g1) (hafter : e.after = .proof g') :
    g1 = g' := by
  cases h <;> exact Work.proof.inj hafter

section
variable {w : World} {g : Goal}

theorem ends_openGoal_of_proof {tactic : String} {k : Goal → Run Value} {Q : Value → World → Prop}
    (hw : w.work = .proof g) (hopen : g.status = none → Ends (k g) w Q fun _ w' => w'.work = .proof g) :
    Ends (openGoal tactic >>= k) w Q fun _ w' => w'.work = .proof g := by
  unfold openGoal
  rw [ends_bind, ends_bind, Run.ends_get, hw]
  cases hstatus : g.status with
  | none => simpa [hstatus] using hopen hstatus
  | some status => simpa [hstatus] using hw

theorem performCommand_step (run : RunAction) (ctx : Context) {c : Command} (args : List Value)
    (hc : c.context = .proofScript) (hw : w.work = .proof g) :
    Ends (performCommand run ctx c args) w
      (fun _ w' => ∃ g', w'.work = .proof g' ∧ TacticRun.Step g ⟨c, args, .proof g, .proof g', true⟩ g')
      (fun _ w' => w'.work = .proof g) := by
  cases c <;> try cases hc
  case trivial =>
    rcases args with _ | ⟨a, rest⟩
    · refine ends_openGoal_of_proof hw fun hopen => ?_
      split
      · exact ⟨_, rfl, .closed hopen rfl⟩
      · exact ends_bind.2 (Run.ends_write (fun _ _ => hw) fun _ _ => hw)
    · exact hw
  case concede =>
    rcases args with _ | ⟨reason, _ | ⟨b, rest⟩⟩
    · exact hw
    · refine ends_openGoal_of_proof hw fun hopen => ?_
      refine ends_bind.2 (Run.ends_orFail (fun _ _ => ?_) fun _ _ => hw)
      exact ends_bind.2 (Run.ends_print fun _ _ => ⟨_, rfl, .closed hopen rfl⟩)
    · exact hw
  case assumeValid =>
    rcases args with _ | ⟨a, rest⟩
    · refine ends_openGoal_of_proof hw fun hopen => ?_
      exact ⟨_, rfl, .closed hopen rfl⟩
    · exact hw
  case goalEval =>
    rcases args with _ | ⟨a, rest⟩
    · refine ends_openGoal_of_proof hw fun hopen => ?_
      exact ⟨_, rfl, .worked hopen hopen rfl⟩
    · exact hw
  case printGoal =>
    rcases args with _ | ⟨a, rest⟩
    · refine ends_openGoal_of_proof hw fun hopen => ?_
      rw [ends_bind, Run.ends_session, ends_bind]
      refine Run.ends_write (fun text _ => ends_bind.2 (Run.ends_print fun w' hprinted => ?_)) fun _ _ => hw
      exact ⟨g, hprinted.work_eq.trans hw, .worked hopen hopen rfl⟩
    · exact hw
  case quickcheck =>
    rcases args with _ | ⟨count, _ | ⟨b, rest⟩⟩
    · exact hw
    · refine ends_openGoal_of_proof hw fun hopen => ?_
      refine ends_bind.2 (Run.ends_orFail (fun _ _ => ?_) fun _ _ => hw)
      refine ends_bind.2 (Run.ends_draw (ends_bind.2 (Run.ends_orTermError (fun outcome _ => ?_) fun _ _ => hw)))
      split
      · exact ends_bind.2 (Run.ends_print fun _ _ => ⟨_, rfl, .closed hopen rfl⟩)
      · exact ends_bind.2 (Run.ends_print fun _ _ => ⟨_, rfl, .closed hopen rfl⟩)
    · exact hw

theorem performCommand_noActions (run : RunAction) (ctx : Context) {c : Command} (args : List Value)
    (hc : c.context = .proofScript) : performCommand run ctx c args = performCommand noActions ctx c args := by
  cases c <;> try cases hc
  all_goals
    rcases args with _ | ⟨a, _ | ⟨b, rest⟩⟩
    · rfl
    · rfl
    · rfl

end

/-! ## One tactic after another -/

/-- The tactics lead from one goal to the other. -/
inductive Follow : Goal → List TacticRun → Goal → Prop
  | nil {g : Goal} : Follow g [] g
  | cons {g g1 g' : Goal} {e : TacticRun} {log : List TacticRun} (step : e.Step g g1) (rest : Follow g1 log g') :
    Follow g (e :: log) g'

namespace Follow

variable {g g1 g' : Goal} {log new : List TacticRun}

theorem append (h : Follow g log g1) (h' : Follow g1 new g') : Follow g (log ++ new) g' := by
  induction h with
  | nil => exact h'
  | cons step _ ih => exact .cons step (ih h')

theorem of_append (h : Follow g (log ++ new) g') : ∃ g1, Follow g log g1 ∧ Follow g1 new g' := by
  induction log generalizing g with
  | nil => exact ⟨g, .nil, h⟩
  | cons e log ih =>
    cases h with
    | cons step rest =>
      obtain ⟨g1, hlog, hnew⟩ := ih rest
      exact ⟨g1, .cons step hlog, hnew⟩

theorem of_closed (h : Follow g log g') (hclosed : g.status ≠ none) :
    g' = g ∧ ∀ e ∈ log, e.completed = false ∧ e.before = .proof g ∧ e.after = .proof g := by
  induction h with
  | nil => exact ⟨rfl, List.forall_mem_nil _⟩
  | cons step _ ih =>
    cases step with
    | failed =>
      obtain ⟨hgoal, hlog⟩ := ih hclosed
      exact ⟨hgoal, List.forall_mem_cons.2 ⟨⟨rfl, rfl, rfl⟩, hlog⟩⟩
    | worked before => exact absurd before hclosed
    | closed before => exact absurd before hclosed

/-- Where all tactics complete and the goal is closed in the end, the last tactic closes it, and no other one closes
anything. -/
theorem last_closes (h : Follow g log g') (hcompleted : ∀ e ∈ log, e.completed = true) (hopen : g.status = none)
    (hclosed : g'.status ≠ none) :
    ∃ init e g₀ status tactic cex, log = init ++ [e] ∧ e.command.closes? = some tactic ∧ e.before = .proof g₀ ∧
      e.after = .proof g' ∧ g₀.status = none ∧ g' = g₀.close status tactic cex ∧
      ∀ e' ∈ init, e'.command.closes? = none := by
  induction h with
  | nil => exact absurd hopen hclosed
  | @cons g g1 g' e log step rest ih =>
    obtain ⟨hfirst, hrest⟩ := List.forall_mem_cons.1 hcompleted
    cases step with
    | failed => cases hfirst
    | worked before after closes =>
      obtain ⟨init, last, g₀, status, closing, cex, rfl, hlast, hbefore, hafter, hstatus, hgoal, hinit⟩ :=
        ih hrest after hclosed
      exact ⟨_ :: init, last, g₀, status, closing, cex, rfl, hlast, hbefore, hafter, hstatus, hgoal,
        List.forall_mem_cons.2 ⟨closes, hinit⟩⟩
    | @closed c args status tactic cex before closes =>
      obtain ⟨rfl, hfailed⟩ := rest.of_closed (by simp [Goal.close])
      -- a tactic behind this one would have failed
      have hnone : log = [] := by
        refine List.eq_nil_iff_forall_not_mem.2 fun e he => ?_
        have hfalse := (hfailed e he).1
        rw [hrest e he] at hfalse
        cases hfalse
      rw [hnone]
      exact ⟨[], _, g, status, tactic, cex, rfl, closes, rfl, rfl, before, rfl, List.forall_mem_nil _⟩

end Follow

/-! ## Runs and their logs -/

section
variable {α β : Type}

/-- In a proof script the first run comes to the same end as the second, which adds the tactics in between to the log:
all of them complete unless the run fails. -/
def Logs (x : Run α) (y : Logged α) : Prop :=
  ∀ (w : World) (log : List TacticRun) (g : Goal), w.work = .proof g → ∃ new g', Follow g new g' ∧
    y ⟨w, log⟩ = withLog (log ++ new) (x w) ∧
    Ends x w (fun _ w' => w'.work = .proof g' ∧ ∀ e ∈ new, e.completed = true) (fun _ w' => w'.work = .proof g')

namespace Logs

variable {x : Run α} {y : Logged α}

theorem lift (hx : ∀ w, Ends x w (fun _ w' => w'.work = w.work) (fun _ w' => w'.work = w.work)) :
    Logs x (Logged.lift x) := by
  intro w log g hw
  refine ⟨[], g, .nil, by rw [List.append_nil]; rfl, ?_⟩
  exact (hx w).imp (fun _ _ h => ⟨h.trans hw, List.forall_mem_nil _⟩) fun _ _ h => h.trans hw

theorem of_quiet (hx : Quiet x) : Logs x (Logged.lift x) :=
  lift fun w => (hx w).imp (fun _ _ h => h.work_eq) fun _ _ h => h.work_eq

theorem pure (a : α) : Logs (Pure.pure a) (Pure.pure a) :=
  of_quiet (x := Pure.pure a) (.pure a)

/-- What is run next may depend on what the first run ends with in proof scripts. -/
theorem bind_of_ok {f : α → Run β} {f' : α → Logged β} (hx : Logs x y)
    (hf : ∀ a, (∃ w g w', w.work = .proof g ∧ x w = .ok a w') → Logs (f a) (f' a)) : Logs (x >>= f) (y >>= f') := by
  intro w log g hw
  obtain ⟨new, g1, hfollow, hy, hends⟩ := hx w log g hw
  cases hresult : x w with
  | error halt w' =>
    have hy1 : y ⟨w, log⟩ = .error halt ⟨w', log ++ new⟩ := by rw [hy, hresult]; rfl
    refine ⟨new, g1, hfollow, ?_, ends_bind.2 ?_⟩
    · simp only [Bind.bind, EStateM.bind, hresult, hy1]
      rfl
    · simpa only [Ends, hresult] using hends
  | ok a w1 =>
    have hy1 : y ⟨w, log⟩ = .ok a ⟨w1, log ++ new⟩ := by rw [hy, hresult]; rfl
    obtain ⟨hw1, hcompleted⟩ := hends.of_ok hresult
    obtain ⟨new', g', hfollow', hy2, hends'⟩ := hf a ⟨w, g, w1, hw, hresult⟩ w1 (log ++ new) g1 hw1
    refine ⟨new ++ new', g', hfollow.append hfollow', ?_, ends_bind.2 ?_⟩
    · simp only [Bind.bind, EStateM.bind, hresult, hy1]
      rw [hy2, List.append_assoc]
    · simp only [Ends, hresult]
      exact hends'.imp (fun _ _ h => ⟨h.1, List.forall_mem_append.2 ⟨hcompleted, h.2⟩⟩) fun _ _ h => h

theorem bind {f : α → Run β} {f' : α → Logged β} (hx : Logs x y) (hf : ∀ a, Logs (f a) (f' a)) :
    Logs (x >>= f) (y >>= f') :=
  hx.bind_of_ok fun a _ => hf a

end Logs

end

theorem logTactic_logs (run : RunAction) (ctx : Context) {c : Command} (args : List Value)
    (hc : c.context = .proofScript) : Logs (performCommand run ctx c args) (logTactic ctx c args) := by
  intro w log g hw
  have hstep := performCommand_step noActions ctx args hc hw
  rw [performCommand_noActions run ctx args hc]
  unfold logTactic Run.after Run.completes
  dsimp only
  cases hx : performCommand noActions ctx c args w with
  | ok v w' =>
    obtain ⟨g', hw', hstep⟩ := hstep.of_ok hx
    refine ⟨_, g', .cons hstep .nil, ?_, ?_⟩
    · dsimp only
      rw [hw, hw']
    · simpa only [Ends, hx, List.forall_mem_singleton, and_true] using hw'
  | error halt w' =>
    have hw' := hstep.of_error hx
    have hfailed : TacticRun.Step g ⟨c, args, .proof g, .proof g, false⟩ g := .failed
    refine ⟨_, g, .cons hfailed .nil, ?_, ?_⟩
    · dsimp only
      rw [hw, hw']
    · simpa only [Ends, hx] using hw'

section
variable {run : RunAction} {run' : Context → Value → Logged Value} (hrun : ∀ ctx v, Logs (run ctx v) (run' ctx v))
  (ctx : Context)
include hrun

theorem logBody_logs (env : Env) (body : List Stmt) : Logs (runBody run ctx env body) (logBody run' ctx env body) := by
  induction body generalizing env with
  | nil => exact .of_quiet (.failAt _ _)
  | cons stmt rest ih =>
    cases stmt with
    | bind span p e =>
      unfold runBody logBody
      refine .bind (.of_quiet (ctx.eval_quiet env e)) fun action => .bind (hrun ctx action) fun result => ?_
      split
      · exact .pure _
      · exact .bind (.of_quiet (.orRuntimeError _)) fun inner => ih inner
    | define span group => exact .bind (.of_quiet (ctx.evalGroup_quiet env [] group)) fun inner => ih inner
    | code span text =>
      refine .bind (.of_quiet .session) fun s => .bind (.of_quiet (.orTermError _ _)) fun terms => ?_
      exact .bind (.lift fun _ => rfl) fun _ => ih env
    | typedef span name t => exact ih _
    | importTerms span file qualifier => exact .of_quiet (.failAt _ _)

theorem logEach_logs (fn : Value) (items : List Value) :
    Logs (runEach run ctx fn items) (logEach run' ctx fn items) := by
  induction items with
  | nil => exact .pure _
  | cons item items ih =>
    refine .bind (.of_quiet (ctx.call_quiet fn item none)) fun action => ?_
    exact .bind (hrun ctx action) fun _ => .bind ih fun _ => .pure _

end

theorem requireContext_quiet (wanted : Option ContextKind) : Quiet (requireContext wanted) := fun w =>
  Run.ends_requireContext (fun _ => .refl w) fun _ _ _ => .refl w

theorem logAction_logs (depth : Nat) (ctx : Context) (v : Value) :
    Logs (runAction depth ctx v) (logAction depth ctx v) := by
  induction depth generalizing ctx v with
  | zero => exact .of_quiet (x := throw .overflow) (.throw _)
  | succ depth ih =>
    cases v with
    | action job =>
      refine .bind_of_ok (.of_quiet (requireContext_quiet job.context)) ?_
      rintro ⟨⟩ ⟨w, g, w', hw, hcontext⟩
      cases job with
      | block env body => exact logBody_logs ih ctx env body
      | yield v => exact .pure v
      | forEach items fn => exact .bind (logEach_logs ih ctx fn items) fun _ => .pure _
      | command c args =>
        have hkind : ∀ kind ∈ some c.context, kind = w.work.kind :=
          (Run.ends_requireContext (fun h => h) fun _ _ _ => trivial :
            Ends (requireContext (some c.context)) w (fun _ _ => ∀ kind ∈ some c.context, kind = w.work.kind)
              fun _ _ => True).of_ok hcontext
        rw [hw] at hkind
        exact logTactic_logs _ ctx args (hkind _ rfl)
      | contextName context => exact .lift fun _ => rfl
    | _ => exact .of_quiet (.bind .session fun _ => .failAt _ _)

/-! ## Proof scripts -/

/-- A proof that is returned has a script that ends well, and leaves a closed goal. -/
theorem runProof_ok {run : RunAction} {ctx : Context} {script : Value} {t : Term} {w w' : World} {g : Goal}
    {status : ProofStatus} (h : runProof run ctx script t w = .ok (g, status) w') :
    g.status = some status ∧ ∃ v w1, run ctx script { w with work := .proof (.start t) } = .ok v w1 ∧
      w1.work = .proof g := by
  suffices hends : Ends (runProof run ctx script t) w (fun r _ => r.1.status = some r.2 ∧ ∃ v w1,
      run ctx script { w with work := .proof (.start t) } = .ok v w1 ∧ w1.work = .proof r.1) fun _ _ => True from
    hends.of_ok h
  unfold runProof
  rw [ends_bind]
  refine Run.ends_withWork ?_
  refine (Run.ends_self _ _).imp (fun v w1 hrun => ?_) fun _ _ _ => trivial
  cases hwork : w1.work with
  | proof goal =>
    cases hstatus : goal.status with
    | some status => simpa [hstatus] using ⟨v, w1, hrun, hwork⟩
    | none =>
      simp only [hstatus, ends_bind]
      exact Run.ends_write (fun _ _ => trivial) fun _ _ => trivial
  | _ => exact trivial

/-- The tactics of a proof script lead from the goal that is stated to the one that the script leaves.  Once one of them
has closed the goal, the tactics behind it fail and leave everything about the goal as it is.  Where a proof is
returned, all tactics have completed, the last one and no other is a tactic that closes goals, and the goal that is
returned has the status and the name of that tactic. -/
theorem goal_closed_once (depth : Nat) (ctx : Context) (script : Value) (t : Term) (w : World) :
    let start : World := { w with work := .proof (.start t) }
    ∃ log goal, logAction depth ctx script ⟨start, []⟩ = withLog log (runAction depth ctx script start) ∧
      ((runAction depth ctx script).after start).work = .proof goal ∧ Follow (.start t) log goal ∧
      (∀ init e rest g, log = init ++ e :: rest → e.after = .proof g → g.status ≠ none →
        goal = g ∧ ∀ e' ∈ rest, e'.completed = false ∧ e'.before = .proof g ∧ e'.after = .proof g) ∧
      ∀ g status w', runProof (runAction depth) ctx script t w = .ok (g, status) w' →
        ∃ init e g₀ tactic cex, log = init ++ [e] ∧ e.completed = true ∧ e.command.closes? = some tactic ∧
          e.before = .proof g₀ ∧ g₀.status = none ∧ e.after = .proof g ∧ g = g₀.close status tactic cex ∧
          ∀ e' ∈ init, e'.completed = true ∧ e'.command.closes? = none := by
  intro start
  obtain ⟨log, goal, hfollow, hlog, hends⟩ := logAction_logs depth ctx script start [] (.start t) rfl
  rw [List.nil_append] at hlog
  have hgoal : ((runAction depth ctx script).after start).work = .proof goal := by
    unfold Run.after
    cases hrun : runAction depth ctx script start with
    | ok v w' => exact (hends.of_ok hrun).1
    | error halt w' => exact hends.of_error hrun
  refine ⟨log, goal, hlog, hgoal, hfollow, ?_, ?_⟩
  · rintro init e rest g rfl hafter hclosed
    obtain ⟨g1, -, hrest⟩ := hfollow.of_append
    cases hrest with
    | cons step hrest =>
      obtain rfl := step.after_eq hafter
      exact hrest.of_closed hclosed
  · intro g status w' hproof
    obtain ⟨hstatus, v, w1, hrun, hwork⟩ := runProof_ok hproof
    obtain ⟨hwork', hcompleted⟩ := hends.of_ok hrun
    obtain rfl : g = goal := Work.proof.inj (hwork.symm.trans hwork')
    have hclosed : g.status ≠ none := by simp [hstatus]
    obtain ⟨init, e, g₀, status', tactic, cex, rfl, hcloses, hbefore, hafter, hopen, hclose, hinit⟩ :=
      hfollow.last_closes hcompleted rfl hclosed
    obtain ⟨hcompletedInit, hcompletedLast⟩ := List.forall_mem_append.1 hcompleted
    -- the status that is returned is the one that the goal has been closed with
    obtain rfl : status' = status := by
      rw [hclose] at hstatus
      exact Option.some.inj hstatus
    exact ⟨init, e, g₀, tactic, cex, rfl, hcompletedLast e List.mem_cons_self, hcloses, hbefore, hopen, hafter, hclose,
      fun e' he' => ⟨hcompletedInit e' he', hinit e' he'⟩⟩

/-- A block that runs tactics without arguments. -/
def tacticBlock (cs : List Command) : Value :=
  let at1 := Span.point "script" 1 1
  .action (.block (cs.map fun c => .value c.name none (.action (.command c [])))
    (cs.map fun c => .bind at1 (.wildcard at1 none) (.var at1 c.name)))

/-- `x || true` is simplified and then closed as trivial: two tactics, and the second one closes the goal. -/
theorem goal_closed_once_simplified :
    let t : Term := .binary .bit .or (.var .bit "x") (.const .bit (.bit true))
    let w : World := .blank
    let ctx : Context := .standard
    let script := tacticBlock [.goalEval, .trivial]
    ∃ g w' log, runProof perform ctx script t w = .ok (g, .valid) w' ∧
      logAction ctx.host.actions ctx script ⟨{ w with work := .proof (.start t) }, []⟩ =
        withLog log (perform ctx script { w with work := .proof (.start t) }) ∧
      log.map (·.command) = [.goalEval, .trivial] ∧
      ∃ init e, log = init ++ [e] ∧ e.command.closes? = some .trivial ∧ e.after = .proof g ∧
        g.tactic = some .trivial := by
  intro t w ctx script
  obtain ⟨log, goal, hlog, -, -, -, hreturn⟩ := goal_closed_once ctx.host.actions ctx script t w
  obtain ⟨init, e, g₀, tactic, cex, hsplit, -, hcloses, -, -, hafter, hclose, -⟩ := hreturn _ _ _ rfl
  obtain rfl : Tactic.trivial = tactic := Option.some.inj (congrArg Goal.tactic hclose)
  have hcommands : log.map (·.command) = [.goalEval, .trivial] := by
    obtain ⟨-, hbook⟩ := EStateM.Result.ok.inj hlog
    rw [← (Logbook.mk.inj hbook).2]
    rfl
  exact ⟨_, _, log, rfl, hlog, hcommands, init, e, hsplit, hcloses, hafter, rfl⟩

end VeriScript
