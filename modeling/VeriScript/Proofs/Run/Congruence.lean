import VeriScript.Run.Eval

/-!
# What holds of the steps of evaluation holds of evaluation

A relation between runs that is respected by the ways in which runs are put together carries over from the steps of
evaluation to evaluation as a whole.  A condition on runs is a relation that looks at one side only.

* `Run.Congruence` — the relation is respected by the ways in which runs are put together.
* `EvalCongruence` — it also holds between the steps of evaluation in two contexts.
* `EvalCongruence.evalExpr`, `EvalCongruence.evalGroup` — expressions and declarations, over the way functions are
  called.
* `EvalCongruence.applyValue` — calls, by the number of calls that may be nested.
* `EvalCongruence.eval`, `EvalCongruence.define`, `EvalCongruence.call` — with the bound that the host sets.
-/

namespace VeriScript

/-- The ways in which runs are put together respect the relation. -/
structure Run.Congruence (C : (α : Type) → Run α → Run α → Prop) : Prop where
  pure {α : Type} (a : α) : C α (Pure.pure a) (Pure.pure a)
  throw {α : Type} (halt : Halt) : C α (MonadExcept.throw halt) (MonadExcept.throw halt)
  bind {α β : Type} {x y : Run α} {f g : α → Run β} (hx : C α x y) (hf : ∀ a, C β (f a) (g a)) :
    C β (x >>= f) (y >>= g)
  through {α : Type} {x y : Run α} (name : Option String) (hx : C α x y) :
    C α (Run.through name x) (Run.through name y)

/-- The relation holds between the steps of evaluation in the two contexts, too, which are on the same host. -/
structure EvalCongruence (C : (α : Type) → Run α → Run α → Prop) (ctx ctx' : Context) : Prop
    extends Run.Congruence C where
  host : ctx.host = ctx'.host
  trace (text : String) : C Unit (ctx.trace text) (ctx'.trace text)
  evalName (env : Env) (name : String) (span : Span) :
    C Value (VeriScript.evalName env name span) (VeriScript.evalName env name span)
  evalCode (env : Env) (text : String) (span : Span) :
    C Value (VeriScript.evalCode env text span) (VeriScript.evalCode env text span)
  notFunction (v : Value) (span : Option Span) :
    C Value (do Run.failAt (.notFunction (v.shown (← Run.session).display)) span)
      (do Run.failAt (.notFunction (v.shown (← Run.session).display)) span)

namespace Run.Congruence

variable {C : (α : Type) → Run α → Run α → Prop} (h : Congruence C) {α : Type}
include h

theorem failAt (fault : RuntimeFault) (span : Option Span) : C α (Run.failAt fault span) (Run.failAt fault span) :=
  h.throw _

theorem orFailAt (span : Option Span) (r : Except RuntimeFault α) :
    C α (Run.orFailAt span r) (Run.orFailAt span r) := by
  cases r with
  | ok a => exact h.pure a
  | error fault => exact h.failAt fault span

theorem orRuntimeError (r : Except RuntimeError α) : C α (Run.orRuntimeError r) (Run.orRuntimeError r) := by
  cases r with
  | ok a => exact h.pure a
  | error e => exact h.throw _

theorem orTermError (span : Option Span) (r : Except TermFault α) :
    C α (Run.orTermError span r) (Run.orTermError span r) := by
  cases r with
  | ok a => exact h.pure a
  | error fault => exact h.throw _

end Run.Congruence

namespace EvalCongruence

variable {C : (α : Type) → Run α → Run α → Prop} {ctx ctx' : Context}

section
variable {call call' : Call}

section
set_option linter.unusedSectionVars false
variable (h : EvalCongruence C ctx ctx') (hcall : ∀ f a span, C Value (call f a span) (call' f a span))
include h hcall

mutual

theorem evalExpr (env : Env) : ∀ e : Expr,
    C Value (VeriScript.evalExpr call ctx env e) (VeriScript.evalExpr call' ctx' env e)
  | .bool _ _ | .int _ _ | .string _ _ | .lam _ _ _ | .block _ _ => by
    unfold VeriScript.evalExpr
    exact h.bind (h.trace _) fun _ => h.pure _
  | .code span text => by
    unfold VeriScript.evalExpr
    exact h.bind (h.trace _) fun _ => h.evalCode env text span
  | .termType span text => by
    unfold VeriScript.evalExpr
    exact h.bind (h.trace _) fun _ => h.bind (h.orTermError _ _) fun _ => h.pure _
  | .array _ elems | .tuple _ elems => by
    unfold VeriScript.evalExpr
    exact h.bind (h.trace _) fun _ => h.bind (evalExprs env elems) fun _ => h.pure _
  | .record _ fields => by
    unfold VeriScript.evalExpr
    exact h.bind (h.trace _) fun _ => h.bind (evalFields env fields) fun _ => h.pure _
  | .index _ array index => by
    unfold VeriScript.evalExpr
    exact h.bind (h.trace _) fun _ => h.bind (evalExpr env array) fun _ =>
      h.bind (evalExpr env index) fun _ => h.orFailAt _ _
  | .field _ e _ | .proj _ e _ => by
    unfold VeriScript.evalExpr
    exact h.bind (h.trace _) fun _ => h.bind (evalExpr env e) fun _ => h.orFailAt _ _
  | .var span name => by
    unfold VeriScript.evalExpr
    exact h.bind (h.trace _) fun _ => h.evalName env name span
  | .app span fn arg => by
    unfold VeriScript.evalExpr
    exact h.bind (h.trace _) fun _ => h.bind (evalExpr env fn) fun f =>
      h.bind (evalExpr env arg) fun a => hcall f a span
  | .letIn _ group body => by
    unfold VeriScript.evalExpr
    exact h.bind (h.trace _) fun _ => h.bind (evalGroup env [] group) fun inner =>
      evalExpr inner body
  | .typed _ e _ | .paren _ e => by
    unfold VeriScript.evalExpr
    exact h.bind (h.trace _) fun _ => evalExpr env e
  | .ite _ test yes no => by
    unfold VeriScript.evalExpr
    refine h.bind (h.trace _) fun _ => h.bind (evalExpr env test) fun v => ?_
    split
    · exact evalExpr env yes
    · exact evalExpr env no
    · exact h.failAt _ _

theorem evalExprs (env : Env) : ∀ es : List Expr,
    C (List Value) (VeriScript.evalExprs call ctx env es) (VeriScript.evalExprs call' ctx' env es)
  | [] => by
    unfold VeriScript.evalExprs
    exact h.pure _
  | e :: es => by
    unfold VeriScript.evalExprs
    exact h.bind (evalExpr env e) fun _ => h.bind (evalExprs env es) fun _ => h.pure _

theorem evalFields (env : Env) : ∀ fields : List (String × Expr),
    C (List (String × Value)) (VeriScript.evalFields call ctx env fields) (VeriScript.evalFields call' ctx' env fields)
  | [] => by
    unfold VeriScript.evalFields
    exact h.pure _
  | (_, e) :: fields => by
    unfold VeriScript.evalFields
    exact h.bind (evalExpr env e) fun _ => h.bind (evalFields env fields) fun _ => h.pure _

theorem evalDecl (env : Env) (schema? : Option Schema) : ∀ d : Decl,
    C Env (VeriScript.evalDecl call ctx env schema? d) (VeriScript.evalDecl call' ctx' env schema? d)
  | .mk _ _ body => by
    unfold VeriScript.evalDecl
    exact h.bind (evalExpr env body) fun _ => h.orRuntimeError _

theorem evalGroup (env : Env) (schemas : List Schema) : ∀ g : Group,
    C Env (VeriScript.evalGroup call ctx env schemas g) (VeriScript.evalGroup call' ctx' env schemas g)
  | .single _ d => by
    unfold VeriScript.evalGroup
    exact evalDecl env schemas.head? d
  | .recursive _ _ => by
    unfold VeriScript.evalGroup
    exact h.bind (h.orRuntimeError _) fun _ => h.pure _

end

end

end

theorem applyValue (h : EvalCongruence C ctx ctx') (depth : Nat) : ∀ fn arg span,
    C Value (VeriScript.applyValue depth ctx fn arg span) (VeriScript.applyValue depth ctx' fn arg span) := by
  induction depth with
  | zero =>
    intro fn arg span
    exact h.throw _
  | succ depth ih =>
    intro fn arg span
    cases fn with
    | closure param env body name =>
      refine h.through name (h.bind (h.orRuntimeError _) fun inner => ?_)
      exact h.evalExpr ih inner body
    | builtin prim args name =>
      rw [VeriScript.applyValue, VeriScript.applyValue]
      split
      · exact h.pure _
      · refine h.through name ?_
        split
        · exact h.pure _
        · exact h.throw _
    | _ => exact h.notFunction _ span

/-! ### With the bound that the host sets -/

theorem call (h : EvalCongruence C ctx ctx') (fn arg : Value) (span : Option Span) :
    C Value (ctx.call fn arg span) (ctx'.call fn arg span) := by
  rw [Context.call, Context.call, ← h.host]
  exact h.applyValue (ctx.host.calls + 1) fn arg span

theorem eval (h : EvalCongruence C ctx ctx') (env : Env) (e : Expr) : C Value (ctx.eval env e) (ctx'.eval env e) :=
  h.evalExpr h.call env e

theorem define (h : EvalCongruence C ctx ctx') (env : Env) (schemas : List Schema) (g : Group) :
    C Env (VeriScript.evalGroup ctx.call ctx env schemas g) (VeriScript.evalGroup ctx'.call ctx' env schemas g) :=
  h.evalGroup h.call env schemas g

end EvalCongruence

end VeriScript
