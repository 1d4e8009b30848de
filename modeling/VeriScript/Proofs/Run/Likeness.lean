import VeriScript.Proofs.Run.Widening
import VeriScript.Proofs.Session.Statements
import VeriScript.Proofs.Value.Likeness

/-!
# Evaluation with values that are like each other

An expression is evaluated in two environments and two sessions that give the names it uses values that are like each
other.  Then the two results are like each other, or both evaluations end early for the same reason.

* `Session.Like` — sessions whose values are like each other.
* `Run.Like` — runs that end alike in such sessions.
* `Env.Like.bindPattern` — what a pattern binds.
* `evalExpr_like`, `evalGroup_like` — expressions and declarations, over the way functions are called.
* `applyValue_like`, `Context.eval_like` — calls, and evaluation with the bound that scripts have.
-/

namespace VeriScript

open Value (Likes LikeFields)

/-! ## Sessions -/

theorem Session.terms_extendMembers (s : Session) (env : Env) (members : List Member) :
    (members.foldl (fun s m => s.extend m.name m.schema? (m.value env)) s).terms = s.terms := by
  induction members generalizing s with
  | nil => rfl
  | cons m members ih => exact ih _

variable {v v' : Value} {env env' : Env} {U : String → Prop}

theorem Value.Like.terms_extend (h : v.Like v') {s s' : Session} (hs : s'.terms = s.terms)
    (name : String) (schema? : Option Schema) :
    (s'.extend name schema? v').terms = (s.extend name schema? v).terms := by
  cases h with
  | atom atom => simp only [Session.extend, hs]
  | _ => exact hs

/-- Inline terms see the same terms. -/
theorem Env.Like.terms_merge {s s' : Session} (hs : s'.terms = s.terms)
    (h : Env.Like U env env') : (s'.merge env').terms = (s.merge env).terms := by
  induction env' generalizing U env with
  | nil =>
    cases h
    exact hs
  | cons entry env' ih =>
    cases h with
    | same => exact Session.terms_merge hs _
    | hidden unused rest => rw [Session.merge, Session.terms_extendMembers, ih rest]
    | value like rest => exact like.terms_extend (ih rest) _ _
    | typedef rest =>
      rw [Session.merge, Session.merge]
      exact ih rest
    | recursive rest =>
      rw [Session.merge, Session.merge, Session.terms_extendMembers, Session.terms_extendMembers, ih rest]

/-- Sessions with the same names, for values that are like each other. -/
structure Session.Like (s s' : Session) : Prop where
  values : ∀ x, Option.Rel Value.Like (Table.get? s.values x) (Table.get? s'.values x)
  terms : s'.terms = s.terms
  display : s'.display = s.display

/-! ## Runs -/

/-- Results that are related, in sessions that are like each other, or the same reason to end early. -/
inductive ResultsLike {α β : Type} (R : α → β → Prop) :
    EStateM.Result Halt World α → EStateM.Result Halt World β → Prop
  | ok {a b w w'} (result : R a b) (session : Session.Like w.session w'.session) : ResultsLike R (.ok a w) (.ok b w')
  | error {halt w w'} : ResultsLike R (.error halt w) (.error halt w')

/-- From sessions that are like each other, the runs end alike. -/
def Run.Like {α β : Type} (R : α → β → Prop) (x : Run α) (y : Run β) : Prop :=
  ∀ w w', w.session.Like w'.session → ResultsLike R (x w) (y w')

namespace Run.Like

variable {α β γ δ : Type} {R : α → β → Prop} {S : γ → δ → Prop}

theorem pure {a : α} {b : β} (h : R a b) : Like R (Pure.pure a) (Pure.pure b) := fun _ _ hs => .ok h hs

theorem throw (halt : Halt) : Like R (MonadExcept.throw halt) (MonadExcept.throw halt) := fun _ _ _ => .error

theorem bind {x : Run α} {y : Run β} {f : α → Run γ} {g : β → Run δ} (hx : Like R x y)
    (hf : ∀ a b, R a b → Like S (f a) (g b)) : Like S (x >>= f) (y >>= g) := by
  intro w w' hs
  have hfirst := hx w w' hs
  simp only [Bind.bind, EStateM.bind]
  generalize x w = r, y w' = r' at hfirst ⊢
  cases hfirst with
  | ok result session => exact hf _ _ result _ _ session
  | error => exact .error

theorem session {f : Session → Run γ} {g : Session → Run δ} (hf : ∀ s s', s.Like s' → Like S (f s) (g s')) :
    Like S (Run.session >>= f) (Run.session >>= g) :=
  fun w w' hs => hf w.session w'.session hs w w' hs

theorem through {x : Run α} {y : Run β} (name : Option String) (hx : Like R x y) :
    Like R (Run.through name x) (Run.through name y) := by
  intro w w' hs
  have hrun := hx w w' hs
  simp only [Run.through]
  generalize x w = r, y w' = r' at hrun ⊢
  cases hrun with
  | ok result session => exact .ok result session
  | @error halt _ _ =>
    cases halt with
    | error e =>
      cases e with
      | runtime e => cases name <;> exact .error
      | _ => exact .error
    | _ => exact .error

theorem trace (ctx : Context) (text : String) : Like (fun _ _ => True) (ctx.trace text) (ctx.trace text) := by
  intro w w' hs
  unfold Context.trace
  split
  · exact .ok trivial hs
  · exact .ok trivial hs

theorem traced {f : Run γ} {g : Run δ} (ctx : Context) (text : String) (hf : Like S f g) :
    Like S (do ctx.trace text; f) (do ctx.trace text; g) :=
  .bind (trace ctx text) fun _ _ _ => hf

theorem orFailAt {r : Except RuntimeFault α} {r' : Except RuntimeFault β} (span : Option Span)
    (h : ExceptLike R r r') : Like R (Run.orFailAt span r) (Run.orFailAt span r') := by
  cases h with
  | ok related => exact .pure related
  | error => exact .throw _

theorem orRuntimeError {r : Except RuntimeError α} {r' : Except RuntimeError β} (h : ExceptLike R r r') :
    Like R (Run.orRuntimeError r) (Run.orRuntimeError r') := by
  cases h with
  | ok related => exact .pure related
  | error => exact .throw _

theorem orTermError (span : Option Span) (r : Except TermFault α) :
    Like Eq (Run.orTermError span r) (Run.orTermError span r) := by
  cases r with
  | ok a => exact .pure rfl
  | error fault => exact .throw _

end Run.Like

/-! ## Patterns -/

/-- Parts of the same name and schema, with values that are like each other. -/
structure Part.Like (q q' : Part) : Prop where
  name : q'.name = q.name
  schema? : q'.schema? = q.schema?
  value : q.value.Like q'.value

theorem Value.Like.components? (h : v.Like v') : Option.Rel Likes v.components? v'.components? := by
  cases h with
  | tuple length elems => exact .some (forall₂_of_zip length elems)
  | atom atom =>
    cases v with
    | unit => exact .some .nil
    | _ => first | exact .none | cases atom
  | _ => exact .none

namespace Pattern

mutual

theorem destructure_like {v v' : Value} : ∀ (p : Pattern) (schema? : Option Schema), v.Like v' →
    ExceptLike (List.Forall₂ Part.Like) (p.destructure schema? v) (p.destructure schema? v')
  | .wildcard _ _, _, _ => .ok .nil
  | .var _ _ _, _, h => .ok (.cons ⟨rfl, rfl, h⟩ .nil)
  | .paren _ inner _, schema?, h => inner.destructure_like schema? h
  | .tuple span elems _, schema?, h => by
    have hitems := h.components?
    simp only [destructure, mismatch, h.shape_eq]
    generalize v.components? = o, v'.components? = o' at hitems ⊢
    cases hitems with
    | none => exact .error
    | some related =>
      simp only [← related.length_eq]
      split
      · exact destructureList_like elems _ related
      · exact .error

theorem destructureList_like {vs vs' : List Value} : ∀ (ps : List Pattern) (schemas : List (Option Schema)),
    Likes vs vs' → ExceptLike (List.Forall₂ Part.Like) (destructureList ps schemas vs) (destructureList ps schemas vs')
  | [], _, _ | _ :: _, [], _ => .ok .nil
  | _ :: _, _ :: _, .nil => .ok .nil
  | p :: ps, s :: ss, .cons head tail => by
    unfold destructureList
    refine (p.destructure_like s head).bind fun parts parts' hparts => ?_
    exact (destructureList_like ps ss tail).bind fun more more' hmore => .ok (List.rel_append hparts hmore)

end

end Pattern

theorem Env.Like.bindParts {parts parts' : List Part} (hparts : List.Forall₂ Part.Like parts parts')
    (h : Env.Like (fun x => x ∉ parts.map (·.name) ∧ U x) env env') :
    Env.Like U (env.bindParts parts) (env'.bindParts parts') := by
  induction hparts generalizing env env' with
  | nil => exact h.mono fun x hx => ⟨List.not_mem_nil, hx⟩
  | @cons q q' parts parts' head tail ih =>
    refine ih ?_
    dsimp only
    rw [head.name, head.schema?]
    refine .value head.value (h.mono fun x hx => ⟨?_, hx.2.2⟩)
    exact List.not_mem_cons_of_ne_of_not_mem hx.1 hx.2.1

theorem Env.Like.bindPattern {p : Pattern} (schema? : Option Schema)
    (hv : v.Like v') (h : Env.Like (fun x => x ∉ p.names ∧ U x) env env') :
    ExceptLike (Env.Like U) (env.bindPattern p schema? v) (env'.bindPattern p schema? v') := by
  have hparts := p.destructure_like schema? hv
  have hnames : ∀ parts, p.destructure schema? v = .ok parts → parts.map (·.name) = p.names :=
    fun _ => p.destructure_names
  unfold Env.bindPattern
  generalize p.destructure schema? v = r, p.destructure schema? v' = r' at hparts hnames ⊢
  cases hparts with
  | error => exact .error
  | @ok parts parts' related =>
    rw [← hnames parts rfl] at h
    exact .ok (h.bindParts related)

/-! ## Records -/

theorem Value.LikeFields.put {fs fs' : List (String × Value)} (h : LikeFields fs fs') (name : String)
    (hv : v.Like v') : LikeFields (Table.put fs name v) (Table.put fs' name v') := by
  induction h with
  | nil => exact .cons ⟨rfl, hv⟩ .nil
  | @cons f f' fs fs' head tail ih =>
    simp only [Table.put, ← head.1]
    split
    · exact .cons ⟨rfl, hv⟩ tail
    · exact .cons ⟨rfl, head.2⟩ ih

theorem Value.LikeFields.ofList {fs fs' : List (String × Value)} (h : LikeFields fs fs') :
    LikeFields (Table.ofList fs) (Table.ofList fs') := by
  have hfold : ∀ {t t' : List (String × Value)}, LikeFields t t' →
      LikeFields (fs.foldl (fun t e => Table.put t e.1 e.2) t) (fs'.foldl (fun t e => Table.put t e.1 e.2) t') := by
    induction h with
    | nil => exact fun ht => ht
    | @cons f f' fs fs' head tail ih =>
      intro t t' ht
      refine ih ?_
      dsimp only
      rw [← head.1]
      exact ht.put f.1 head.2
  exact hfold .nil

/-! ## Recursive groups -/

/-- What a function that is written within types and parentheses uses, the expression uses. -/
theorem Expr.uses_of_asFunction {e : Expr} {p : Pattern} {body : Expr} (h : e.asFunction? = some (p, body)) {x : String}
    (hx : x ∉ p.names ∧ body.Uses x) : e.Uses x := by
  fun_induction Expr.asFunction? e with
  | case1 =>
    cases h
    exact hx
  | case2 _ e _ ih => exact ih h
  | case3 _ e ih => exact ih h
  | case4 => cases h

theorem MembersOf.usesList {ds : List Decl} {ss : List (Option Schema)} {ms : List Member} (h : MembersOf ds ss ms)
    {x : String} (hx : ∃ m ∈ ms, m.Uses x) : Decl.UsesList x ds := by
  induction h with
  | nil =>
    obtain ⟨m, hm, -⟩ := hx
    cases hm
  | @cons d ds s ss ms name param body fn named rest ih =>
    obtain ⟨m, hm, huses⟩ := hx
    obtain rfl | hm := List.mem_cons.1 hm
    · obtain ⟨dspan, p, e⟩ := d
      exact .inl (Expr.uses_of_asFunction fn huses)
    · exact .inr (ih ⟨m, hm, huses⟩)

/-! ## Evaluation -/

theorem evalName_like {name : String} (h : Option.Rel Value.Like (env.lookup name) (env'.lookup name))
    (span : Span) : Run.Like Value.Like (evalName env name span) (evalName env' name span) := by
  refine .session fun s s' hs => ?_
  have hvalue : Option.Rel Value.Like ((env.lookup name).or (Table.get? s.values name))
      ((env'.lookup name).or (Table.get? s'.values name)) := by
    generalize env.lookup name = o, env'.lookup name = o' at h ⊢
    cases h with
    | none => exact hs.values name
    | some like => exact .some like
  generalize (env.lookup name).or (Table.get? s.values name) = o,
    (env'.lookup name).or (Table.get? s'.values name) = o' at hvalue ⊢
  cases hvalue with
  | none => exact .throw _
  | some like => exact .pure (like.called name)

theorem evalCode_like (h : Env.Like U env env') (text : String) (span : Span) :
    Run.Like Value.Like (evalCode env text span) (evalCode env' text span) := by
  refine .session fun s s' hs => ?_
  dsimp only
  rw [h.terms_merge hs.terms]
  exact .bind (.orTermError _ _) fun t t' ht => .pure (ht ▸ .atom rfl)

section
variable {call call' : Call} {ctx : Context}

/-- Calls of functions that are like each other end alike. -/
def Call.Like (call call' : Call) : Prop :=
  ∀ {f f' a a' : Value} (span : Option Span), f.Like f' → a.Like a' →
    Run.Like Value.Like (call f a span) (call' f' a' span)

section
set_option linter.unusedSectionVars false
variable (hcall : Call.Like call call')
include hcall

mutual

theorem evalExpr_like {env env' : Env} : ∀ e : Expr,
    Env.Like (fun x => e.Uses x) env env' → Run.Like Value.Like (evalExpr call ctx env e) (evalExpr call' ctx env' e)
  | .bool _ _, _ | .int _ _, _ | .string _ _, _ => by
    unfold evalExpr
    exact .traced ctx _ (.pure (.atom rfl))
  | .lam _ _ _, h => by
    unfold evalExpr
    exact .traced ctx _ (.pure (.closure h))
  | .block _ _, h => by
    unfold evalExpr
    exact .traced ctx _ (.pure (.block h))
  | .code span text, h => by
    unfold evalExpr
    exact .traced ctx _ (evalCode_like h text span)
  | .termType span text, _ => by
    unfold evalExpr
    exact .traced ctx _ (.bind (.orTermError _ _) fun t t' ht => .pure (ht ▸ .atom rfl))
  | .array _ elems, h => by
    unfold evalExpr
    exact .traced ctx _ (.bind (evalExprs_like elems h) fun _ _ hvs => .pure (.of_array hvs))
  | .tuple _ elems, h => by
    unfold evalExpr
    exact .traced ctx _ (.bind (evalExprs_like elems h) fun _ _ hvs => .pure (.ofTuple hvs))
  | .record _ fields, h => by
    unfold evalExpr
    exact .traced ctx _ (.bind (evalFields_like fields h) fun _ _ hfs => .pure (.of_record hfs.ofList))
  | .index _ array index, h => by
    unfold evalExpr
    refine .traced ctx _ (.bind (evalExpr_like array (h.mono fun _ => .inl)) fun _ _ ha => ?_)
    exact .bind (evalExpr_like index (h.mono fun _ => .inr)) fun _ _ hi => .orFailAt _ (ha.index hi)
  | .field _ e name, h => by
    unfold evalExpr
    exact .traced ctx _ (.bind (evalExpr_like e h) fun _ _ hv => .orFailAt _ (hv.field name))
  | .proj _ e i, h => by
    unfold evalExpr
    exact .traced ctx _ (.bind (evalExpr_like e h) fun _ _ hv => .orFailAt _ (hv.proj i))
  | .var span name, h => by
    unfold evalExpr
    exact .traced ctx _ (evalName_like (h.lookup rfl) span)
  | .app span fn arg, h => by
    unfold evalExpr
    refine .traced ctx _ (.bind (evalExpr_like fn (h.mono fun _ => .inl)) fun _ _ hf => ?_)
    exact .bind (evalExpr_like arg (h.mono fun _ => .inr)) fun _ _ ha => hcall span hf ha
  | .letIn _ group body, h => by
    unfold evalExpr
    exact .traced ctx _ (.bind (evalGroup_like [] group h) fun _ _ hinner => evalExpr_like body hinner)
  | .typed _ e _, h | .paren _ e, h => by
    unfold evalExpr
    exact .traced ctx _ (evalExpr_like e h)
  | .ite _ test yes no, h => by
    unfold evalExpr
    refine .traced ctx _ (.bind (evalExpr_like test (h.mono fun _ => .inl)) fun v v' hv => ?_)
    have hyes := evalExpr_like yes (h.mono fun _ hx => .inr (.inl hx))
    have hno := evalExpr_like no (h.mono fun _ hx => .inr (.inr hx))
    cases hv with
    | atom atom =>
      split
      · exact hyes
      · exact hno
      · exact .throw _
    | _ => exact .throw _

theorem evalExprs_like {env env' : Env} : ∀ es : List Expr,
    Env.Like (fun x => Expr.UsesList x es) env env' →
    Run.Like Likes (evalExprs call ctx env es) (evalExprs call' ctx env' es)
  | [], _ => by
    unfold evalExprs
    exact .pure .nil
  | e :: es, h => by
    unfold evalExprs
    refine .bind (evalExpr_like e (h.mono fun _ => .inl)) fun _ _ hv => ?_
    exact .bind (evalExprs_like es (h.mono fun _ => .inr)) fun _ _ hvs => .pure (.cons hv hvs)

theorem evalFields_like {env env' : Env} : ∀ fields : List (String × Expr),
    Env.Like (fun x => Expr.UsesFields x fields) env env' →
    Run.Like LikeFields (evalFields call ctx env fields) (evalFields call' ctx env' fields)
  | [], _ => by
    unfold evalFields
    exact .pure .nil
  | (_, e) :: fields, h => by
    unfold evalFields
    refine .bind (evalExpr_like e (h.mono fun _ => .inl)) fun _ _ hv => ?_
    exact .bind (evalFields_like fields (h.mono fun _ => .inr)) fun _ _ hfs => .pure (.cons ⟨rfl, hv⟩ hfs)

theorem evalDecl_like (schema? : Option Schema) {U : String → Prop} {env env' : Env} : ∀ d : Decl,
    Env.Like (fun x => d.Uses x ∨ x ∉ d.pattern.names ∧ U x) env env' →
    Run.Like (Env.Like U) (evalDecl call ctx env schema? d) (evalDecl call' ctx env' schema? d)
  | .mk _ _ body, h => by
    unfold evalDecl
    refine .bind (evalExpr_like body (h.mono fun _ => .inl)) fun _ _ hv => ?_
    exact .orRuntimeError (Env.Like.bindPattern schema? hv (h.mono fun _ => .inr))

theorem evalGroup_like (schemas : List Schema) {U : String → Prop} {env env' : Env} : ∀ g : Group,
    Env.Like (fun x => g.Uses x ∨ x ∉ g.names ∧ U x) env env' →
    Run.Like (Env.Like U) (evalGroup call ctx env schemas g) (evalGroup call' ctx env' schemas g)
  | .single _ d, h => by
    unfold evalGroup
    refine evalDecl_like _ d (h.mono fun x hx => hx.imp_right fun hx' => ⟨?_, hx'.2⟩)
    simpa [Group.names, Group.decls] using hx'.1
  | .recursive _ ds, h => by
    unfold evalGroup
    have hlength : ((List.range ds.length).map fun i => schemas[i]?).length = ds.length := by simp
    have hmeets := recursiveMembers_meets hlength
    dsimp only
    cases hmembers : recursiveMembers ds ((List.range ds.length).map fun i => schemas[i]?) with
    | error e => exact .throw _
    | ok members =>
      rw [hmembers] at hmeets
      refine .pure (.recursive (h.mono fun x hx => ?_))
      have hown : x ∉ ds.flatMap fun d => d.pattern.names := by
        rw [← MembersOf.names_eq hmeets]
        intro hmem
        obtain ⟨m, hm, rfl⟩ := List.mem_map.1 hmem
        exact hx.1 m hm rfl
      rcases hx.2 with hU | huses
      · exact .inr ⟨hown, hU⟩
      · exact .inl ⟨hown, MembersOf.usesList hmeets huses⟩

end

end

end

/-! ## Calls -/

theorem notFunction_like (h : v.Like v') (span : Option Span) : Run.Like Value.Like
    (do Run.failAt (.notFunction (v.shown (← Run.session).display)) span)
    (do Run.failAt (.notFunction (v'.shown (← Run.session).display)) span) := by
  refine .session fun s s' hs => ?_
  rw [hs.display, h.shown_eq]
  exact .throw _

theorem applyValue_like (ctx : Context) (depth : Nat) :
    Call.Like (applyValue depth ctx) (applyValue depth ctx) := by
  induction depth with
  | zero => exact fun _ _ _ => .throw _
  | succ depth ih =>
    intro f f' a a' span hf ha
    have hlike := hf
    cases hf with
    | @closure p env env' body name captured =>
      refine .through name (.bind (.orRuntimeError (captured.bindPattern none ha)) fun _ _ hinner => ?_)
      exact evalExpr_like ih body hinner
    | @builtin prim args args' name length elems =>
      have hargs : Likes (args ++ [a]) (args' ++ [a']) :=
        List.rel_append (forall₂_of_zip length elems) (.cons ha .nil)
      rw [applyValue, applyValue, ← length]
      split
      · exact .pure (.of_builtin hargs)
      · refine .through name ?_
        have happly := prim.apply_like hargs
        generalize prim.apply (args ++ [a]) = r, prim.apply (args' ++ [a']) = r' at happly ⊢
        cases happly with
        | ok like => exact .pure like
        | error => exact .throw _
    | atom atom =>
      cases f with
      | closure | builtin => cases atom
      | _ => exact notFunction_like hlike span
    | _ => exact notFunction_like hlike span

theorem Context.eval_like (ctx : Context) (env : Env) (e : Expr) :
    Run.Like Value.Like (ctx.eval env e) (ctx.eval env e) :=
  evalExpr_like (applyValue_like ctx (ctx.host.calls + 1)) e .same

end VeriScript
