import VeriScript.Proofs.Primitive.Operations
import VeriScript.Proofs.Run.Evaluation
import VeriScript.Proofs.Value.Environment

/-!
# Evaluation keeps to types

* `Session.Provides` — the names of a scope have values of their types in a session.
* `Run.Gives` — a run that only prints gives a result, and does not fail for the kind of a value.
* `evalExpr_gives`, `evalGroup_gives` — what has a type evaluates to a value of the type.
* `applyValue_gives` — calling a function, by the number of calls that may be nested.
-/

namespace VeriScript

/-- The run ended with an error that comes from the kind of a value. -/
def Halt.isShape : Halt → Bool
  | .error e | .unwritable _ e => e.isShape
  | _ => false

theorem ScriptError.isShape_halt (e : ScriptError) : e.halt.isShape = e.isShape := by
  unfold ScriptError.halt
  split <;> rfl

/-- Every name of the scope has a value of its types. -/
def Session.Provides (allowed : Command → Prop) (G : Scope) (s : Session) : Prop :=
  ∀ x τ, G x τ → ∃ v, Table.get? s.values x = some v ∧ HasTy allowed G v τ

namespace Run

/-- In the session, the run prints at most and gives what `Q` says, unless it fails for another reason than the
kind of a value. -/
def Gives {α : Type} (s : Session) (x : Run α) (Q : α → Prop) : Prop :=
  ∀ w, w.session = s →
    Ends x w (fun a w' => w.Printed w' ∧ Q a) (fun halt w' => w.Printed w' ∧ halt.isShape = false)

namespace Gives

variable {α β : Type} {s : Session} {x : Run α} {Q : α → Prop}

theorem pure {a : α} (h : Q a) : Gives s (Pure.pure a) Q := fun w _ => ⟨.refl w, h⟩

theorem bind {f : α → Run β} {R : β → Prop} (hx : Gives s x Q) (hf : ∀ a, Q a → Gives s (f a) R) :
    Gives s (x >>= f) R := by
  intro w hw
  rw [ends_bind]
  refine (hx w hw).imp (fun a w' ⟨hprinted, ha⟩ => ?_) (fun _ _ h => h)
  refine (hf a ha w' (hprinted.session_eq.trans hw)).imp (fun _ _ h => ?_) (fun _ _ h => ?_)
  · exact ⟨hprinted.trans h.1, h.2⟩
  · exact ⟨hprinted.trans h.1, h.2⟩

theorem trace (ctx : Context) (text : String) : Gives s (ctx.trace text) fun _ => True :=
  fun _ _ => ends_trace fun _ h => ⟨h, trivial⟩

theorem session : Gives s Run.session (· = s) := fun w hw => ⟨.refl w, hw⟩

theorem throw {halt : Halt} (h : halt.isShape = false) : Gives s (MonadExcept.throw halt : Run α) Q :=
  fun w _ => ⟨.refl w, h⟩

theorem fail {e : ScriptError} (h : e.isShape = false) : Gives s (Run.fail e : Run α) Q :=
  .throw (e.isShape_halt.trans h)

theorem orFailAt {span : Option Span} {r : Except RuntimeFault α} (h : Meets (fun f => f.isShape = false) r Q) :
    Gives s (Run.orFailAt span r) Q := by
  cases r with
  | ok a => exact .pure h
  | error fault => exact .fail h

theorem write (r : Except Text.Fault String) : Gives s (Run.write r) fun _ => True :=
  .orFailAt (text_meets r)

theorem orRuntimeError {r : Except RuntimeError α} (h : Meets (fun e => e.fault.isShape = false) r Q) :
    Gives s (Run.orRuntimeError r) Q := by
  cases r with
  | ok a => exact .pure h
  | error e => exact .fail h

theorem orTermError {span : Option Span} {r : Except TermFault α} (h : ∀ a, Q a) :
    Gives s (Run.orTermError span r) Q := by
  cases r with
  | ok a => exact .pure (h a)
  | error fault => exact .throw rfl

theorem through {name : Option String} (hx : Gives s x Q) : Gives s (Run.through name x) Q :=
  fun w hw => ends_through (hx w hw) fun _ _ _ h => h

/-- What holds of the result whatever the index holds for all indices at once. -/
theorem all {ι : Type} {R : ι → α → Prop} (i : ι) (h : ∀ i, Gives s x (R i)) : Gives s x fun a => ∀ i, R i a := by
  intro w hw
  have hends := fun i => h i w hw
  unfold Ends at hends ⊢
  cases hx : x w with
  | ok a w' =>
    simp only [hx] at hends
    exact ⟨(hends i).1, fun i => (hends i).2⟩
  | error halt w' =>
    simp only [hx] at hends
    exact hends i

end Gives

end Run

open Run (Gives)

variable {allowed : Command → Prop} {G : Scope} {s : Session}

/-! ## Names -/

variable {τ : Mono} {v : Value} {Γ : Scope} {env : Env} {al : Aliases} {fields : List (String × Value)} {bs : Typings}

theorem HasTy.called (h : HasTy allowed G v τ) (name : String) : HasTy allowed G (v.called name) τ := by
  cases h with
  | closure scope param typed => exact .closure scope param typed
  | builtin typed given => exact .builtin typed given
  | _ => constructor <;> assumption

theorem evalName_gives (hs : s.Provides allowed G) (henv : EnvTy allowed G env Γ)
    {x : String} (hx : Γ x τ) (span : Span) : Gives s (evalName env x span) (HasTy allowed G · τ) := by
  unfold evalName
  refine .bind .session ?_
  rintro _ rfl
  obtain ⟨v, hv, htyped⟩ | ⟨hnone, hG⟩ := henv.lookup hx
  · rw [hv, Option.some_or]
    exact .pure (htyped.called x)
  · obtain ⟨v, hv, htyped⟩ := hs x τ hG
    rw [hnone, Option.none_or, hv]
    exact .pure (htyped.called x)

/-! ## Values that expressions build -/

theorem HasTys.ofTuple {vs : List Value} {τs : List Mono} (h : HasTys allowed G vs τs) :
    HasTy allowed G (.ofTuple vs) (.tuple τs) := by
  cases vs with
  | nil =>
    cases h
    exact .unit
  | cons v vs => exact .tuple h

theorem HasTypes.replicate {es : List Expr}
    (h : ∀ e ∈ es, HasType al Γ e τ) : HasTypes al Γ es (List.replicate es.length τ) := by
  induction es with
  | nil => exact .nil
  | cons e es ih =>
    obtain ⟨he, hes⟩ := List.forall_mem_cons.1 h
    exact .cons he (ih hes)

theorem HasTys.forall_of_replicate {vs : List Value} {n : Nat}
    (h : HasTys allowed G vs (List.replicate n τ)) : ∀ v ∈ vs, HasTy allowed G v τ := by
  induction n generalizing vs with
  | zero =>
    obtain rfl := h.nil_inv
    nofun
  | succ n ih =>
    cases h with
    | cons head tail => exact List.forall_mem_cons.2 ⟨head, ih tail⟩

/-- The fields have the names and the types of the typings, one by one. -/
inductive FieldsTyped (allowed : Command → Prop) (G : Scope) : List (String × Value) → Typings → Prop
  | nil : FieldsTyped allowed G [] []
  | cons {name v fields τ bs} (head : HasTy allowed G v τ) (tail : FieldsTyped allowed G fields bs) :
    FieldsTyped allowed G ((name, v) :: fields) ((name, τ) :: bs)

theorem FieldsTyped.names_eq (h : FieldsTyped allowed G fields bs) : Table.names fields = Table.names bs := by
  induction h with
  | nil => rfl
  | cons head tail ih => exact congrArg _ ih

theorem FieldsTyped.get? (h : FieldsTyped allowed G fields bs)
    (x : String) : (Table.get? fields x = none ∧ Table.get? bs x = none) ∨
      ∃ v τ, Table.get? fields x = some v ∧ Table.get? bs x = some τ ∧ HasTy allowed G v τ := by
  induction h with
  | nil => exact .inl ⟨rfl, rfl⟩
  | @cons name v fields τ bs head tail ih =>
    by_cases hx : name = x
    · exact .inr ⟨v, τ, by simp [Table.get?, hx], by simp [Table.get?, hx], head⟩
    · simpa only [Table.get?, hx, if_false] using ih

theorem FieldsTyped.record (h : FieldsTyped allowed G fields bs) (hnodup : (Table.names bs).Nodup) :
    HasTy allowed G (.record (Table.ofList fields)) (.record (Table.get? bs)) := by
  have hget : ∀ x, Table.get? (Table.ofList fields) x = Table.get? fields x := fun x => by
    rw [Table.get?_ofList, Table.get?_reverse_of_nodup (h.names_eq ▸ hnodup)]
  refine .record (fun x => ?_) (fun x v τ hv hτ => ?_)
  · rw [hget]
    obtain ⟨hnone, hnone'⟩ | ⟨v, τ, hv, hτ, -⟩ := h.get? x
    · rw [hnone, hnone']
      rfl
    · rw [hv, hτ]
      rfl
  · rw [hget] at hv
    obtain ⟨hnone, -⟩ | ⟨v', τ', hv', hτ', htyped⟩ := h.get? x
    · rw [hnone] at hv
      cases hv
    · rw [hv'] at hv
      rw [hτ'] at hτ
      cases hv
      cases hτ
      exact htyped

theorem HasFields.names_eq {fields : List (String × Expr)}
    (h : HasFields al Γ fields bs) : Table.names bs = Table.names fields := by
  induction fields generalizing bs with
  | nil =>
    cases h
    rfl
  | cons f fields ih =>
    cases h with
    | cons head tail => exact congrArg _ (ih tail)

/-! ## Patterns and groups -/

theorem bindPattern_meets {ι : Type} {p : Pattern} {τ : ι → Mono} {bs : ι → Typings} (i : ι)
    (htakes : ∀ i, p.Takes al (τ i) (bs i)) (hv : ∀ i, HasTy allowed G v (τ i))
    (henv : EnvTy allowed G env Γ) (schema? : Option Schema) :
    Meets (fun e => e.fault.isShape = false) (env.bindPattern p schema? v) (EnvTy allowed G · (Γ.bindAny bs)) := by
  unfold Env.bindPattern
  obtain ⟨parts, hparts, -⟩ := Pattern.destructure_typed schema? (htakes i) (hv i)
  have htyped : ∀ i, PartsTyped allowed G parts (bs i) := fun i => by
    obtain ⟨parts', hparts', htyped⟩ := Pattern.destructure_typed schema? (htakes i) (hv i)
    rw [hparts] at hparts'
    cases hparts'
    exact htyped
  rw [hparts]
  exact henv.bindParts htyped

theorem bindPattern_one_meets {p : Pattern} (htakes : p.Takes al τ bs)
    (hv : HasTy allowed G v τ) (henv : EnvTy allowed G env Γ) (schema? : Option Schema) :
    Meets (fun e => e.fault.isShape = false) (env.bindPattern p schema? v) (EnvTy allowed G · (Γ.bind bs)) := by
  refine (bindPattern_meets () (fun _ => htakes) (fun _ => hv) henv schema?).imp fun env' henv' => ?_
  exact henv'.restrict fun x τ h => ⟨(), h⟩

/-! ## Expressions -/

/-- Calling a function of a type on an argument of its type gives a value of its type. -/
def CallTyped (allowed : Command → Prop) (G : Scope) (s : Session) (call : Call) : Prop :=
  ∀ {f a : Value} {τ σ : Mono} (span : Option Span), HasTy allowed G f (.fn τ σ) → HasTy allowed G a τ →
    Gives s (call f a span) (HasTy allowed G · σ)

section
set_option linter.unusedSectionVars false
variable (hs : s.Provides allowed G) {call : Call} (hcall : CallTyped allowed G s call) (ctx : Context)
include hs hcall

mutual

theorem evalExpr_gives {al : Aliases} {Γ : Scope} {τ : Mono} {env : Env} : ∀ e : Expr, HasType al Γ e τ →
    EnvTy allowed G env Γ → Gives s (evalExpr call ctx env e) (HasTy allowed G · τ)
  | .bool _ _, h, _ => by
    cases h
    unfold evalExpr
    exact .bind (.trace _ _) fun _ _ => .pure .bool
  | .int _ _, h, _ => by
    cases h
    unfold evalExpr
    exact .bind (.trace _ _) fun _ _ => .pure .int
  | .string _ _, h, _ => by
    cases h
    unfold evalExpr
    exact .bind (.trace _ _) fun _ _ => .pure .string
  | .code _ _, h, _ => by
    cases h
    unfold evalExpr evalCode
    refine .bind (.trace _ _) fun _ _ => .bind .session fun s _ => ?_
    exact .bind (.orTermError (Q := fun _ => True) fun _ => trivial) fun _ _ => .pure .term
  | .termType _ _, h, _ => by
    cases h
    unfold evalExpr
    refine .bind (.trace _ _) fun _ _ => ?_
    exact .bind (.orTermError (Q := fun _ => True) fun _ => trivial) fun _ _ => .pure .termType
  | .array _ es, h, henv => by
    cases h with
    | array elems =>
      unfold evalExpr
      refine .bind (.trace _ _) fun _ _ => ?_
      exact .bind (evalExprs_gives es (.replicate elems) henv) fun vs hvs =>
        .pure (.array hvs.forall_of_replicate)
  | .tuple _ es, h, henv => by
    cases h with
    | tuple elems =>
      unfold evalExpr
      refine .bind (.trace _ _) fun _ _ => ?_
      exact .bind (evalExprs_gives es elems henv) fun vs hvs => .pure hvs.ofTuple
  | .record _ fields, h, henv => by
    cases h with
    | record distinct typed =>
      unfold evalExpr
      refine .bind (.trace _ _) fun _ _ => ?_
      refine .bind (evalFields_gives fields typed henv) fun vs hvs => .pure (hvs.record ?_)
      rwa [typed.names_eq]
  | .index _ a i, h, henv => by
    cases h with
    | index array index =>
      unfold evalExpr
      refine .bind (.trace _ _) fun _ _ => ?_
      refine .bind (evalExpr_gives a array henv) fun v hv => ?_
      refine .bind (evalExpr_gives i index henv) fun j hj => ?_
      exact .orFailAt (Value.index_typed hv hj)
  | .field _ e name, h, henv => by
    cases h with
    | field record has =>
      unfold evalExpr
      refine .bind (.trace _ _) fun _ _ => ?_
      refine .bind (evalExpr_gives e record henv) fun v hv => .orFailAt ?_
      obtain ⟨u, hu, htyped⟩ := Value.field_typed hv has
      rw [hu]
      exact htyped
  | .proj _ e i, h, henv => by
    cases h with
    | proj tuple has =>
      unfold evalExpr
      refine .bind (.trace _ _) fun _ _ => ?_
      refine .bind (evalExpr_gives e tuple henv) fun v hv => .orFailAt ?_
      obtain ⟨u, hu, htyped⟩ := Value.proj_typed hv has
      rw [hu]
      exact htyped
  | .var span x, h, henv => by
    cases h with
    | var scope =>
      unfold evalExpr
      exact .bind (.trace _ _) fun _ _ => evalName_gives hs henv scope span
  | .lam _ _ _, h, henv => by
    cases h with
    | lam param body =>
      unfold evalExpr
      exact .bind (.trace _ _) fun _ _ => .pure (.closure henv param body)
  | .app span f a, h, henv => by
    cases h with
    | app fn arg =>
      unfold evalExpr
      refine .bind (.trace _ _) fun _ _ => ?_
      refine .bind (evalExpr_gives f fn henv) fun g hg => ?_
      exact .bind (evalExpr_gives a arg henv) fun v hv => hcall span hg hv
  | .letIn _ g e, h, henv => by
    cases h with
    | letIn group body =>
      unfold evalExpr
      refine .bind (.trace _ _) fun _ _ => ?_
      refine .bind (evalGroup_gives g [] group henv) fun inner hinner => ?_
      exact evalExpr_gives e body hinner
  | .typed _ e _, h, henv => by
    cases h with
    | typed written inner =>
      unfold evalExpr
      exact .bind (.trace _ _) fun _ _ => evalExpr_gives e inner henv
  | .ite _ c y n, h, henv => by
    cases h with
    | ite test yes no =>
      unfold evalExpr
      refine .bind (.trace _ _) fun _ _ => ?_
      refine .bind (evalExpr_gives c test henv) fun v hv => ?_
      obtain ⟨b, rfl⟩ := hv.bool_inv
      cases b with
      | true => exact evalExpr_gives y yes henv
      | false => exact evalExpr_gives n no henv
  | .block _ _, h, henv => by
    cases h with
    | block stmts =>
      unfold evalExpr
      exact .bind (.trace _ _) fun _ _ => .pure (.block henv stmts)
  | .paren _ e, h, henv => by
    cases h with
    | paren inner =>
      unfold evalExpr
      exact .bind (.trace _ _) fun _ _ => evalExpr_gives e inner henv

theorem evalExprs_gives {al : Aliases} {Γ : Scope} {τs : List Mono} {env : Env} : ∀ es : List Expr,
    HasTypes al Γ es τs → EnvTy allowed G env Γ → Gives s (evalExprs call ctx env es) (HasTys allowed G · τs)
  | [], h, _ => by
    cases h
    unfold evalExprs
    exact .pure .nil
  | e :: es, h, henv => by
    cases h with
    | cons head tail =>
      unfold evalExprs
      refine .bind (evalExpr_gives e head henv) fun v hv => ?_
      exact .bind (evalExprs_gives es tail henv) fun vs hvs => .pure (.cons hv hvs)

theorem evalFields_gives {al : Aliases} {Γ : Scope} {bs : Typings} {env : Env} : ∀ fields : List (String × Expr),
    HasFields al Γ fields bs → EnvTy allowed G env Γ →
    Gives s (evalFields call ctx env fields) (FieldsTyped allowed G · bs)
  | [], h, _ => by
    cases h
    unfold evalFields
    exact .pure .nil
  | (name, e) :: fields, h, henv => by
    cases h with
    | cons head tail =>
      unfold evalFields
      refine .bind (evalExpr_gives e head henv) fun v hv => ?_
      exact .bind (evalFields_gives fields tail henv) fun vs hvs => .pure (.cons hv hvs)

theorem evalGroup_gives {al : Aliases} {Γ Δ : Scope} {env : Env} : ∀ (g : Group) (schemas : List Schema),
    Declares al Γ g Δ → EnvTy allowed G env Γ → Gives s (evalGroup call ctx env schemas g) (EnvTy allowed G · Δ)
  | .single _ (.mk _ p e), schemas, h, henv => by
    cases h with
    | single some typed takes below =>
      obtain ⟨i⟩ := some
      unfold evalGroup evalDecl
      refine .bind (.all i fun i => evalExpr_gives e (typed i) henv) fun v hv => ?_
      refine .orRuntimeError ((bindPattern_meets i takes hv henv schemas.head?).imp fun env' henv' => ?_)
      exact henv'.restrict below
  | .recursive _ ds, schemas, h, henv => by
    cases h with
    | recursive some typed below =>
      unfold evalGroup
      refine .bind (.orRuntimeError (recursiveMembers_meets (by simp))) fun members hmembers => ?_
      exact .pure (.recursive (fun i => hmembers.typed (typed i)) henv below)

end

end

/-! ## Calls -/

theorem applyValue_gives (hs : s.Provides allowed G) (ctx : Context) (depth : Nat) :
    CallTyped allowed G s (applyValue depth ctx) := by
  induction depth with
  | zero => exact fun _ _ _ => .throw rfl
  | succ depth ih =>
    intro f a τ σ span hf ha
    cases hf.fn_inv with
    | closure scope param typed =>
      unfold applyValue
      refine .through (.bind (.orRuntimeError (bindPattern_one_meets param ha scope none)) fun inner hinner => ?_)
      exact evalExpr_gives hs ih ctx _ typed hinner
    | @builtin prim args name params rest ρ typed given result =>
      subst result
      have hgiven : HasTys allowed G (args ++ [a]) (params ++ [τ]) := given.append (.cons ha .nil)
      have harity : prim.arity = args.length + 1 + rest.length := by
        rw [← typed.length_eq, given.length_eq, List.length_append, List.length_cons]
        omega
      rw [List.append_cons] at typed
      rw [applyValue]
      split
      · rename_i hmore
        cases rest with
        | nil => simp only [List.length_nil] at harity; omega
        | cons ν rest => exact .pure (.builtin typed hgiven)
      · rename_i hall
        have hrest : rest = [] := List.eq_nil_of_length_eq_zero (by omega)
        subst hrest
        rw [List.append_nil] at typed
        refine .through ?_
        have hmeets := Primitive.apply_typed typed hgiven
        split
        · rename_i v hv
          rw [hv] at hmeets
          exact .pure hmeets
        · rename_i e he
          rw [he] at hmeets
          exact .fail hmeets

theorem Context.eval_gives (hs : s.Provides allowed G) (ctx : Context) {e : Expr}
    (h : HasType al Γ e τ) (henv : EnvTy allowed G env Γ) : Gives s (ctx.eval env e) (HasTy allowed G · τ) :=
  evalExpr_gives hs (applyValue_gives hs ctx (ctx.host.calls + 1)) ctx e h henv

end VeriScript
