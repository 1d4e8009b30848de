import VeriScript.Proofs.Run.Congruence
import VeriScript.Proofs.Run.Outcome

/-!
# Evaluation prints at most

Evaluation traces what it visits and changes nothing else.  So it changes what the trace changes: the output at
most, and nothing at all when there is no trace.

* `evalCongruence_within` — evaluation changes what traces change.
* `Context.eval_quiet`, `Context.eval_silent` — evaluation with and without a trace.
* `runBody_keeps` — a block keeps what the actions in it keep, as far as sessions and output do not matter.
-/

namespace VeriScript

open Run (Within Quiet Silent Keeps)

section
variable {P : World → World → Prop} [IsPreorder World P]

theorem evalName_within (env : Env) (name : String) (span : Span) : Within P (evalName env name span) := by
  unfold evalName
  refine .bind .session fun s => ?_
  split
  · exact .pure _
  · exact .failAt _ _

theorem evalCode_within (env : Env) (text : String) (span : Span) : Within P (evalCode env text span) :=
  .bind .session fun _ => .bind (.orTermError _ _) fun _ => .pure _

theorem evalCongruence_within {ctx : Context} (htrace : ∀ text, Within P (ctx.trace text)) :
    EvalCongruence (fun _ x _ => Within P x) ctx ctx where
  pure := .pure
  throw := .throw
  bind := .bind
  through := .through
  host := rfl
  trace := htrace
  evalName := evalName_within
  evalCode := evalCode_within
  notFunction _ _ := .bind .session fun _ => .failAt _ _

end

namespace Context

theorem call_quiet (ctx : Context) (fn arg : Value) (span : Option Span) : Quiet (ctx.call fn arg span) :=
  (evalCongruence_within (Run.trace_quiet ctx)).call fn arg span

theorem eval_quiet (ctx : Context) (env : Env) (e : Expr) : Quiet (ctx.eval env e) :=
  (evalCongruence_within (Run.trace_quiet ctx)).eval env e

theorem evalGroup_quiet (ctx : Context) (env : Env) (schemas : List Schema) (g : Group) :
    Quiet (evalGroup ctx.call ctx env schemas g) :=
  (evalCongruence_within (Run.trace_quiet ctx)).define env schemas g

theorem eval_silent {ctx : Context} (h : ctx.options.debug = false) (env : Env) (e : Expr) :
    Silent (ctx.eval env e) :=
  (evalCongruence_within (Run.trace_silent h)).eval env e

end Context

/-! ## Actions -/

section
variable {Q : Work → Prop} {run : RunAction} (hrun : ∀ ctx v, Keeps (fun w => Q w.work) (run ctx v))
  (ctx : Context)

theorem keeps_of_quiet {α : Type} {x : Run α} (hx : Quiet x) : Keeps (fun w => Q w.work) x :=
  .of_quiet hx fun h hw => by rwa [h.work_eq]

include hrun

theorem runBody_keeps : ∀ (env : Env) (body : List Stmt), Keeps (fun w => Q w.work) (runBody run ctx env body) := by
  intro env body
  induction body generalizing env with
  | nil => exact keeps_of_quiet (.failAt _ _)
  | cons stmt rest ih =>
    cases stmt with
    | bind span p e =>
      refine .bind (keeps_of_quiet (ctx.eval_quiet env e)) fun action => ?_
      refine .bind (hrun ctx action) fun result => ?_
      split
      · exact .pure _
      · exact .bind (keeps_of_quiet (.orRuntimeError _)) fun inner => ih inner
    | define span group =>
      exact .bind (keeps_of_quiet (ctx.evalGroup_quiet env [] group)) fun inner => ih inner
    | code span text =>
      refine .bind (keeps_of_quiet .session) fun s => ?_
      refine .bind (keeps_of_quiet (.orTermError _ _)) fun terms => ?_
      exact .bind (fun _ hw => hw) fun _ => ih env
    | typedef span name t => exact ih _
    | importTerms span file qualifier => exact keeps_of_quiet (.failAt _ _)

theorem runEach_keeps (fn : Value) (items : List Value) :
    Keeps (fun w => Q w.work) (runEach run ctx fn items) := by
  induction items with
  | nil => exact .pure _
  | cons item items ih =>
    refine .bind (keeps_of_quiet (ctx.call_quiet fn item none)) fun action => ?_
    exact .bind (hrun ctx action) fun _ => .bind ih fun _ => .pure _

end

theorem Run.ends_requireContext {wanted : Option ContextKind} {w : World} {Q : Unit → World → Prop}
    {E : Halt → World → Prop} (hok : (∀ kind ∈ wanted, kind = w.work.kind) → Q () w)
    (herror : ∀ kind ∈ wanted, kind ≠ w.work.kind →
      E (.error (.runtime ⟨.wrongContext kind w.work.kind, none, []⟩)) w) :
    Run.Ends (requireContext wanted) w Q E := by
  unfold requireContext
  cases wanted with
  | none => exact hok (by simp)
  | some kind =>
    by_cases hkind : kind = w.work.kind
    · simpa [hkind] using hok (by simp [hkind])
    · simp only [if_neg hkind, ends_bind, ends_get]
      exact herror kind rfl hkind

/-- Commands that keep a condition on the work at hand are all it takes: actions of any other kind keep
what the actions inside them keep. -/
theorem runAction_keeps {Q : Work → Prop}
    (hcommand : ∀ {run : RunAction}, (∀ ctx v, Keeps (fun w => Q w.work) (run ctx v)) → ∀ ctx c args w,
      Q w.work → c.context = w.work.kind →
        Run.Ends (performCommand run ctx c args) w (fun _ w' => Q w'.work) (fun _ _ => True)) :
    ∀ depth ctx v, Keeps (fun w => Q w.work) (runAction depth ctx v) := by
  intro depth
  induction depth with
  | zero => exact fun _ _ _ _ => trivial
  | succ depth ih =>
    intro ctx v w hw
    cases v with
    | action job =>
      rw [runAction, Run.ends_bind]
      refine Run.ends_requireContext (fun hkind => ?_) (fun _ _ _ => trivial)
      cases job with
      | block env body => exact runBody_keeps ih ctx env body w hw
      | yield v => exact hw
      | forEach items fn => exact Keeps.bind (runEach_keeps ih ctx fn items) (fun _ => .pure _) w hw
      | command c args => exact hcommand ih ctx c args w hw (hkind _ rfl)
      | contextName context => exact hw
    | _ => trivial

end VeriScript
