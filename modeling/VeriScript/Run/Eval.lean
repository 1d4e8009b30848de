import VeriScript.Primitive.Apply
import VeriScript.Run.World
import VeriScript.Term.Elaborate

/-!
# Evaluation

Evaluation reads the session and never changes it.  It follows the structure of expressions; only a call
goes on with the body of another function, so calls are what bounds it.

* `evalExpr`, `evalGroup` (`eval_expr`, `interpret_decl_group`) — over the way functions are called.
* `applyValue` (`apply_value`) — call a function, with at most so many calls nested.
* `Context.eval`, `Context.call` — with the bound that the host sets.
-/

namespace VeriScript

/-- How a function is called: the function, the argument, the position of the call. -/
abbrev Call := Value → Value → Option Span → Run Value

/-- The parameter and the body of an expression that is a function, within types and parentheses. -/
def Expr.asFunction? : Expr → Option (Pattern × Expr)
  | .lam _ p body => some (p, body)
  | .typed _ e _ => e.asFunction?
  | .paren _ e => e.asFunction?
  | _ => none

/-- The functions of a recursive group; all of them have to be functions before their names matter. -/
def recursiveMembers (ds : List Decl) (schemas : List (Option Schema)) : Except RuntimeError (List Member) := do
  let functions ← ds.mapM fun d =>
    match d.body.asFunction? with
    | some f => .ok (d, f)
    | none => .error ⟨.notRecursiveFunction, some d.span, []⟩
  (functions.zip schemas).mapM fun ((d, (param, body)), schema?) =>
    match d.pattern.names with
    | [name] => .ok ⟨name, schema?, param, body⟩
    | _ => .error ⟨.recursivePattern, some d.span, []⟩

/-- The value of a name: in the local environment, then in the session. -/
def evalName (env : Env) (name : String) (span : Span) : Run Value := do
  let local? := env.lookup name
  match local?.or (Table.get? (← Run.session).values name) with
  | some v => return v.called name
  | none => Run.failAt (.unknownVariable name) span

/-- An inline term, with the names of the local environment and of the session. -/
def evalCode (env : Env) (text : String) (span : Span) : Run Value := do
  let scope := (← Run.session).merge env
  return .term (← Run.orTermError span (parseTerm scope.terms text))

mutual

/-- The value of an expression. -/
def evalExpr (call : Call) (ctx : Context) (env : Env) : Expr → Run Value
  | .bool _ b => do
    ctx.trace "Evaluating: BOOL"
    return .bool b
  | .int _ n => do
    ctx.trace "Evaluating: INT"
    return .int n
  | .string _ s => do
    ctx.trace "Evaluating: STRING"
    return .string s
  | .code span text => do
    ctx.trace "Evaluating: CODE"
    evalCode env text span
  | .termType span text => do
    ctx.trace "Evaluating: CTYPE"
    return .termType (← Run.orTermError span (parseTermType text))
  | .array _ elems => do
    ctx.trace "Evaluating: ARRAY"
    return .array (← evalExprs call ctx env elems)
  | .tuple _ elems => do
    ctx.trace "Evaluating: TUPLE"
    return .ofTuple (← evalExprs call ctx env elems)
  | .record _ fields => do
    ctx.trace "Evaluating: RECORD"
    return .record (Table.ofList (← evalFields call ctx env fields))
  | .index span array index => do
    ctx.trace "Evaluating: INDEX"
    let a ← evalExpr call ctx env array
    let i ← evalExpr call ctx env index
    Run.orFailAt span (a.index i)
  | .field span record name => do
    ctx.trace "Evaluating: LOOKUP"
    let r ← evalExpr call ctx env record
    Run.orFailAt span (r.field name)
  | .proj span tuple i => do
    ctx.trace "Evaluating: TLOOKUP"
    let t ← evalExpr call ctx env tuple
    Run.orFailAt span (t.proj i)
  | .var span name => do
    ctx.trace "Evaluating: VAR"
    evalName env name span
  | .lam _ param body => do
    ctx.trace "Evaluating: FUNCTION"
    return .closure param env body none
  | .app span fn arg => do
    ctx.trace "Evaluating: APPLICATION"
    let f ← evalExpr call ctx env fn
    let a ← evalExpr call ctx env arg
    call f a span
  | .letIn _ group body => do
    ctx.trace "Evaluating: LET"
    let inner ← evalGroup call ctx env [] group
    evalExpr call ctx inner body
  | .typed _ e _ => do
    ctx.trace "Evaluating: TSIG"
    evalExpr call ctx env e
  | .ite _ test yes no => do
    ctx.trace "Evaluating: IF"
    match ← evalExpr call ctx env test with
    | .bool true => evalExpr call ctx env yes
    | .bool false => evalExpr call ctx env no
    | v => Run.failAt (.notCondition v.tag) test.span
  | .block _ body => do
    ctx.trace "Evaluating: BLOCK"
    return .action (.block env body)
  | .paren _ inner => do
    ctx.trace "Evaluating: LOCATED"
    evalExpr call ctx env inner

def evalExprs (call : Call) (ctx : Context) (env : Env) : List Expr → Run (List Value)
  | [] => return []
  | e :: es => do
    let v ← evalExpr call ctx env e
    let vs ← evalExprs call ctx env es
    return v :: vs

def evalFields (call : Call) (ctx : Context) (env : Env) : List (String × Expr) → Run (List (String × Value))
  | [] => return []
  | (name, e) :: fields => do
    let v ← evalExpr call ctx env e
    let vs ← evalFields call ctx env fields
    return (name, v) :: vs

/-- The environment behind a declaration. -/
def evalDecl (call : Call) (ctx : Context) (env : Env) (schema? : Option Schema) : Decl → Run Env
  | .mk _ p body => do
    let v ← evalExpr call ctx env body
    Run.orRuntimeError (env.bindPattern p schema? v)

/-- The environment behind a group; `schemas` are those of its declarations, as far as they are known. -/
def evalGroup (call : Call) (ctx : Context) (env : Env) (schemas : List Schema) : Group → Run Env
  | .single _ d => evalDecl call ctx env schemas.head? d
  | .recursive _ ds => do
    let known := (List.range ds.length).map fun i => schemas[i]?
    let members ← Run.orRuntimeError (recursiveMembers ds known)
    return .recursive members :: env

end

/-- Call a function with one argument, with at most `depth` calls nested. -/
def applyValue : Nat → Context → Call
  | 0, _, _, _, _ => throw .overflow
  | depth + 1, ctx, fn, arg, span =>
    match fn with
    | .closure param env body name =>
      Run.through name do
        let inner ← Run.orRuntimeError (Env.bindPattern env param none arg)
        evalExpr (applyValue depth ctx) ctx inner body
    | .builtin prim args name =>
      if args.length + 1 < prim.arity then return .builtin prim (args ++ [arg]) none
      else Run.through name (match prim.apply (args ++ [arg]) with
        | .ok v => return v
        | .error e => Run.fail e)
    | v => do Run.failAt (.notFunction (v.shown (← Run.session).display)) span

namespace Context

/-- Call a function with one argument. -/
def call (ctx : Context) : Call :=
  applyValue (ctx.host.calls + 1) ctx

/-- The value of an expression. -/
def eval (ctx : Context) (env : Env) (e : Expr) : Run Value :=
  evalExpr ctx.call ctx env e

end Context

end VeriScript
