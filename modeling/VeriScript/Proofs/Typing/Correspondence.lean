import VeriScript.Proofs.Script.Names
import VeriScript.Typing.Infer

/-!
# Inference in environments that correspond

Two environments give the same names types that correspond.  A relation between computations that the steps of
inference respect holds of inference in the two environments, for every expression that does not use a name for which
their entries differ.

* `Check.Correspondence` — types and environments that correspond, and a relation that the steps respect.
* `Check.Correspondence.inferExpr`, `Check.Correspondence.inferGroup` — inference.
-/

namespace VeriScript.Check

/-- Types and environments that correspond, with a relation between computations that the steps of inference respect. -/
structure Correspondence where
  /-- What the first computation does, the second does as well, and their results are related. -/
  Matches : {α : Type} → (α → α → Prop) → Check α → Check α → Prop
  /-- The type that corresponds to a type. -/
  onTy : Ty → Ty
  /-- The type may be written in a script. -/
  Written : Ty → Prop
  /-- The name for which entries may differ. -/
  name : String
  /-- The environments correspond; where the condition holds, their entries for the name do, too. -/
  Env : Prop → TypeEnv → TypeEnv → Prop
  con (name : String) (args : List Ty) : .con name (args.map onTy) = onTy (.con name args)
  record (fields : List (String × Ty)) : .record (fields.map fun f => (f.1, onTy f.2)) = onTy (.record fields)
  written {t} : Written t → t = onTy t
  imp {V W env env'} : Env V env env' → (W → V) → Env W env env'
  bindName {V env env' x s} : Env (name ≠ x ∧ V) env env' →
    Env V (env.bind x s) (env'.bind x ⟨s.vars, onTy s.type⟩)
  bindAlias {V env env' x t} : Written t → Env V env env' → Env V (env.bindAlias x t) (env'.bindAlias x t)
  pure {α : Type} {R : α → α → Prop} {a b} : R a b → Matches R (Pure.pure a) (Pure.pure b)
  fail {α : Type} {R : α → α → Prop} {fault fault' : TypeFault} {span span' : Option Span} :
    Matches R (Check.fail fault span) (Check.fail fault' span')
  bind {α β : Type} {R : α → α → Prop} {S : β → β → Prop} {x y : Check α} {f g : α → Check β} : Matches R x y →
    (∀ a b, R a b → Matches S (f a) (g b)) → Matches S (x >>= f) (y >>= g)
  visit (kind : String) : Matches (fun _ _ => True) (Check.visit kind) (Check.visit kind)
  fresh : Matches (fun t t' => t' = onTy t) Check.fresh Check.fresh
  zonk (t : Ty) : Matches (fun u u' => u' = onTy u) (Check.zonk t) (Check.zonk (onTy t))
  unify (t u : Ty) (span : Option Span) :
    Matches (fun _ _ => True) (Check.unify t u span) (Check.unify (onTy t) (onTy u) span)
  generalize {V env env'} (t : Ty) : Env V env env' →
    Matches (fun s s' => s' = ⟨s.vars, onTy s.type⟩) (Check.generalize env t) (Check.generalize env' (onTy t))
  resolve {V env env' t} {span : Option Span} : Env V env env' → Written t →
    Matches (fun u u' => u' = u ∧ Written u) (Check.resolve env t span) (Check.resolve env' t span)
  recordField (t : Ty) (x : String) (span : Span) :
    Matches (fun u u' => u' = onTy u) (Check.recordField t x span) (Check.recordField (onTy t) x span)
  tupleElem (t : Ty) (i : Nat) (span : Span) :
    Matches (fun u u' => u' = onTy u) (Check.tupleElem t i span) (Check.tupleElem (onTy t) i span)
  var {env env'} {span : Span} {x : String} : Env (x = name) env env' →
    Matches (fun t t' => t' = onTy t) (Check.inferExpr env (.var span x)) (Check.inferExpr env' (.var span x))
  single {V env env'} {span : Span} {d : Decl} :
    Matches (fun s s' => s' = ⟨s.vars, onTy s.type⟩) (Check.inferDecl env false d) (Check.inferDecl env' false d) →
    Env (name ∉ d.pattern.names ∧ V) env env' →
    Matches (fun r r' => r'.1 = r.1.map (fun s => ⟨s.vars, onTy s.type⟩) ∧ Env V r.2 r'.2)
      (Check.inferGroup env (.single span d)) (Check.inferGroup env' (.single span d))

namespace Correspondence

def onSchema (M : Correspondence) (s : Schema) : Schema :=
  ⟨s.vars, M.onTy s.type⟩

abbrev By (M : Correspondence) {α : Type} (f : α → α) (x y : Check α) : Prop :=
  M.Matches (fun a b => b = f a) x y

section
variable {M : Correspondence} {α β : Type} {S : β → β → Prop} {V : Prop} {env env' : TypeEnv} {span : Option Span}

theorem fail_bind {fault fault' : TypeFault} {span' : Option Span} {k k' : α → Check β} :
    M.Matches S (Check.fail fault span >>= k) (Check.fail fault' span' >>= k') :=
  M.bind (R := fun _ _ => False) M.fail fun _ _ h => h.elim

theorem andThen {f : α → α} {x y : Check α} {k k' : α → Check β} (hx : M.By f x y)
    (hk : ∀ a, M.Matches S (k a) (k' (f a))) : M.Matches S (x >>= k) (y >>= k') :=
  M.bind hx fun a _ hb => hb ▸ hk a

theorem visited {kind : String} {k k' : Unit → Check β} (hk : M.Matches S (k ()) (k' ())) :
    M.Matches S (Check.visit kind >>= k) (Check.visit kind >>= k') :=
  M.bind (M.visit kind) fun _ _ _ => hk

theorem unified {t u t' u' : Ty} {k k' : Unit → Check β} (ht : t' = M.onTy t) (hu : u' = M.onTy u)
    (hk : M.Matches S (k ()) (k' ())) :
    M.Matches S (Check.unify t u span >>= k) (Check.unify t' u' span >>= k') := by
  subst ht hu
  exact M.bind (M.unify t u span) fun _ _ _ => hk

theorem resolved {t : Ty} (h : M.Env V env env') (ht : M.Written t) :
    M.By M.onTy (Check.resolve env t span) (Check.resolve env' t span) := by
  rw [← bind_pure (Check.resolve env t span), ← bind_pure (Check.resolve env' t span)]
  refine M.bind (M.resolve h ht) ?_
  rintro u _ ⟨rfl, hu⟩
  exact M.pure (M.written hu)

/-! ## Environments -/

theorem bindAll (entries : List (String × Schema)) (h : M.Env (M.name ∉ Table.names entries ∧ V) env env') :
    M.Env V (env.bindAll entries) (env'.bindAll (entries.map fun e => (e.1, M.onSchema e.2))) := by
  induction entries generalizing env env' with
  | nil => exact M.imp h fun hV => ⟨List.not_mem_nil, hV⟩
  | cons e entries ih =>
    refine ih (M.bindName (M.imp h ?_))
    rintro ⟨hne, hnot, hV⟩
    exact ⟨List.not_mem_cons_of_ne_of_not_mem hne hnot, hV⟩

theorem bindMono {binds : List (String × Ty)} {names : List String} (hnames : Table.names binds = names)
    (h : M.Env (M.name ∉ names ∧ V) env env') :
    M.Env V (Check.bindMono env binds) (Check.bindMono env' (binds.map fun b => (b.1, M.onTy b.2))) := by
  have hnames : Table.names (binds.map fun b => (b.1, Schema.mono b.2)) = names := by
    rw [← hnames]
    simp [Table.names]
  have hall := bindAll (binds.map fun b => (b.1, Schema.mono b.2)) (hnames ▸ h)
  simpa [Check.bindMono, Function.comp_def, onSchema, Schema.mono] using hall

theorem bindMembers {ds : List Decl} (hnames : ∀ d ∈ ds, ∃ x, d.pattern.names = [x]) {schemas : List Schema}
    (hlength : schemas.length = ds.length) (h : M.Env (M.name ∉ ds.flatMap (fun d => d.pattern.names) ∧ V) env env') :
    M.Env V ((ds.zip schemas).foldl (fun env e => bindMember env e.1 e.2) env)
      ((ds.zip (schemas.map M.onSchema)).foldl (fun env e => bindMember env e.1 e.2) env') := by
  induction ds generalizing schemas env env' with
  | nil => exact M.imp h fun hV => ⟨List.not_mem_nil, hV⟩
  | cons d ds ih =>
    cases schemas with
    | nil => cases hlength
    | cons s schemas =>
      obtain ⟨⟨x, hx⟩, hnames⟩ := List.forall_mem_cons.1 hnames
      refine ih hnames (Nat.succ.inj hlength) ?_
      simp only [bindMember, hx]
      refine M.bindName (M.imp h ?_)
      rintro ⟨hne, hnot, hV⟩
      simp only [List.flatMap_cons, hx, List.mem_append, List.mem_singleton]
      exact ⟨not_or.2 ⟨hne, hnot⟩, hV⟩

/-! ## Patterns -/

theorem declared (h : M.Env V env env') {type? : Option Ty} (ht : ∀ t ∈ type?, M.Written t) :
    M.By (Option.map M.onTy) (type?.mapM (Check.resolve env · span)) (type?.mapM (Check.resolve env' · span)) := by
  cases type? with
  | none => exact M.pure rfl
  | some t =>
    show M.By _ (do return some (← Check.resolve env t span)) (do return some (← Check.resolve env' t span))
    exact andThen (resolved h (ht t rfl)) fun _ => M.pure rfl

theorem declared_unify (declared : Option Ty) {t t' : Ty} (ht : t' = M.onTy t) {k k' : Unit → Check β}
    (hk : M.Matches S (k ()) (k' ())) :
    M.Matches S (match declared with
      | some d => do
        let r ← Check.unify d t span
        k r
      | _ => k ())
      (match declared.map M.onTy with
      | some d => do
        let r ← Check.unify d t' span
        k' r
      | _ => k' ()) := by
  cases declared with
  | none => exact hk
  | some d => exact unified rfl ht hk

/-- What corresponds to a type, or types, and the types of some variables. -/
def part (M : Correspondence) (f : α → α) (r : α × List (String × Ty)) : α × List (String × Ty) :=
  (f r.1, r.2.map fun b => (b.1, M.onTy b.2))

end

mutual

theorem inferPattern (M : Correspondence) {V : Prop} {env env' : TypeEnv} (h : M.Env V env env') : ∀ p : Pattern,
    p.AllTypes M.Written → M.Matches (fun r r' => r' = M.part M.onTy r ∧ Table.names r.2 = p.names)
      (Check.inferPattern env p) (Check.inferPattern env' p)
  | .wildcard _ none, _ | .var _ _ none, _ => by
    unfold Check.inferPattern
    exact andThen M.fresh fun _ => M.pure ⟨rfl, rfl⟩
  | .wildcard _ (some t), ht | .var _ _ (some t), ht => by
    unfold Check.inferPattern
    exact andThen (resolved h (ht t rfl)) fun _ => M.pure ⟨rfl, rfl⟩
  | .paren _ inner type?, ⟨ht, hinner⟩ => by
    unfold Check.inferPattern
    refine andThen (declared h ht) fun declared => M.bind (inferPattern M h inner hinner) ?_
    rintro r _ ⟨rfl, hnames⟩
    exact declared_unify declared rfl (M.pure ⟨rfl, hnames⟩)
  | .tuple _ elems type?, ⟨ht, helems⟩ => by
    unfold Check.inferPattern
    refine andThen (declared h ht) fun declared => M.bind (inferPatterns M h elems helems) ?_
    rintro r _ ⟨rfl, hnames⟩
    exact declared_unify declared (M.con _ _) (M.pure ⟨Prod.ext (M.con _ _) rfl, hnames⟩)

theorem inferPatterns (M : Correspondence) {V : Prop} {env env' : TypeEnv} (h : M.Env V env env') :
    ∀ ps : List Pattern, Pattern.AllTypesList M.Written ps →
      M.Matches (fun r r' => r' = M.part (List.map M.onTy) r ∧
          Table.names r.2 = (Pattern.distributeList ps (List.replicate ps.length none)).map (·.1))
        (Check.inferPatterns env ps) (Check.inferPatterns env' ps)
  | [], _ => by
    unfold Check.inferPatterns
    exact M.pure ⟨rfl, rfl⟩
  | p :: ps, ⟨hp, hps⟩ => by
    unfold Check.inferPatterns
    refine M.bind (inferPattern M h p hp) ?_
    rintro first _ ⟨rfl, hfirst⟩
    refine M.bind (inferPatterns M h ps hps) ?_
    rintro rest _ ⟨rfl, hrest⟩
    refine M.pure ⟨by simp [part], ?_⟩
    rw [Table.names, List.map_append, List.length_cons, List.replicate_succ, Pattern.distributeList, List.map_append]
    exact congr (congrArg (· ++ ·) hfirst) hrest

end

/-! ## Members of recursive groups -/

section
variable {M : Correspondence} {V W : Prop} {env env' : TypeEnv}

theorem inferMembers (h : M.Env V env env') (ds : List Decl) (hds : Decl.AllTypesList M.Written ds)
    {inner inner' : TypeEnv} (hinner : M.Env (M.name ∉ ds.flatMap (fun d => d.pattern.names) ∧ W) inner inner') :
    M.Matches (fun r r' => r'.1 = r.1.map M.onTy ∧ M.Env W r.2 r'.2 ∧ r.1.length = ds.length ∧
        ∀ d ∈ ds, ∃ x, d.pattern.names = [x])
      (Check.inferMembers env ds inner) (Check.inferMembers env' ds inner') := by
  induction ds generalizing inner inner' with
  | nil => exact M.pure ⟨rfl, M.imp hinner fun hW => ⟨List.not_mem_nil, hW⟩, rfl, List.forall_mem_nil _⟩
  | cons d ds ih =>
    obtain ⟨hd, hds⟩ := hds
    have hpattern : d.pattern.AllTypes M.Written := by
      cases d
      exact hd.1
    unfold Check.inferMembers
    split
    · rename_i x hx
      dsimp only
      split
      · exact fail_bind
      · refine M.bind (inferPattern M h d.pattern hpattern) ?_
        rintro first _ ⟨rfl, -⟩
        have hbound : M.Env (M.name ∉ ds.flatMap (fun d => d.pattern.names) ∧ W) (inner.bind x (.mono first.1))
            (inner'.bind x (.mono (M.onTy first.1))) := by
          refine M.bindName (M.imp hinner ?_)
          rintro ⟨hne, hnot, hW⟩
          simp only [List.flatMap_cons, hx, List.mem_append, List.mem_singleton]
          exact ⟨not_or.2 ⟨hne, hnot⟩, hW⟩
        refine M.bind (ih hds hbound) ?_
        rintro rest _ ⟨hts, hrest, hlength, hnames⟩
        exact M.pure ⟨congrArg (M.onTy first.1 :: ·) hts, hrest, congrArg Nat.succ hlength,
          List.forall_mem_cons.2 ⟨⟨x, hx⟩, hnames⟩⟩
    · exact M.fail

theorem generalizeAll (h : M.Env V env env') (ts : List Ty) :
    M.Matches (fun ss ss' => ss' = ss.map M.onSchema ∧ ss.length = ts.length) (ts.mapM (Check.generalize env))
      ((ts.map M.onTy).mapM (Check.generalize env')) := by
  induction ts with
  | nil => exact M.pure ⟨rfl, rfl⟩
  | cons t ts ih =>
    rw [List.mapM_cons, List.map_cons, List.mapM_cons]
    refine andThen (M.generalize t h) fun s => M.bind ih ?_
    rintro ss _ ⟨rfl, hlength⟩
    exact M.pure ⟨rfl, congrArg Nat.succ hlength⟩

end

/-! ## Expressions -/

section
variable (M : Correspondence)

mutual

/-- The types of an expression in the two environments correspond, if it does not use the name for which their entries
differ. -/
theorem inferExpr {env env' : TypeEnv} : ∀ e : Expr, e.AllTypes M.Written → M.Env (e.Uses M.name) env env' →
    M.By M.onTy (Check.inferExpr env e) (Check.inferExpr env' e)
  | .bool _ _, _, _ | .int _ _, _, _ | .string _ _, _, _ | .code _ _, _, _
  | .termType _ _, _, _ => by
    unfold Check.inferExpr
    exact visited (M.pure (M.con _ []))
  | .array _ es, hts, h => by
    unfold Check.inferExpr
    exact visited (andThen M.fresh fun elem => M.bind (inferElems es elem hts h) fun _ _ _ => M.pure (M.con _ [_]))
  | .tuple _ es, hts, h => by
    unfold Check.inferExpr
    exact visited (andThen (inferExprs es hts h) fun _ => M.pure (M.con _ _))
  | .record _ fields, hts, h => by
    unfold Check.inferExpr
    refine visited ?_
    dsimp only
    split
    · exact fail_bind
    · exact andThen (inferFields fields hts h) fun _ => M.pure (M.record _)
  | .index _ array index, hts, h => by
    unfold Check.inferExpr
    refine visited (andThen M.fresh fun elem => andThen (inferExpr array hts.1 (M.imp h .inl)) fun t => ?_)
    refine unified (M.con _ [_]) rfl (andThen (inferExpr index hts.2 (M.imp h .inr)) fun u => ?_)
    exact unified (M.con _ []) rfl (M.pure rfl)
  | .field _ e _, hts, h => by
    unfold Check.inferExpr
    refine visited (andThen (inferExpr e hts h) fun t => ?_)
    exact andThen (M.zonk t) fun t => M.recordField t _ _
  | .proj _ e _, hts, h => by
    unfold Check.inferExpr
    refine visited (andThen (inferExpr e hts h) fun t => ?_)
    exact andThen (M.zonk t) fun t => M.tupleElem t _ _
  | .var _ _, _, h => M.var h
  | .lam _ param body, hts, h => by
    unfold Check.inferExpr
    refine visited (M.bind (inferPattern M h param hts.1) ?_)
    rintro r _ ⟨rfl, hnames⟩
    exact andThen (inferExpr body hts.2 (bindMono hnames h)) fun t => M.pure (M.con _ [_, _])
  | .app _ fn arg, hts, h => by
    unfold Check.inferExpr
    refine visited (andThen (inferExpr fn hts.1 (M.imp h .inl)) fun t => ?_)
    refine andThen (inferExpr arg hts.2 (M.imp h .inr)) fun u => andThen M.fresh fun result => ?_
    exact unified (M.con _ [_, _]) rfl (M.pure rfl)
  | .letIn _ group body, hts, h => by
    unfold Check.inferExpr
    refine visited (M.bind (inferGroup group hts.1 h) ?_)
    rintro r r' ⟨-, hinner⟩
    exact inferExpr body hts.2 hinner
  | .typed _ e type, hts, h => by
    unfold Check.inferExpr
    refine visited (andThen (resolved h hts.1) fun declared => andThen (inferExpr e hts.2 h) fun t => ?_)
    exact unified rfl rfl (M.pure rfl)
  | .ite _ test yes no, hts, h => by
    unfold Check.inferExpr
    refine visited (andThen (inferExpr test hts.1 (M.imp h .inl)) fun t => unified (M.con _ []) rfl ?_)
    refine andThen (inferExpr yes hts.2.1 (M.imp h (.inr ∘ .inl))) fun result => ?_
    refine andThen (inferExpr no hts.2.2 (M.imp h (.inr ∘ .inr))) fun u => ?_
    exact unified rfl rfl (M.pure rfl)
  | .block _ body, hts, h => by
    unfold Check.inferExpr
    refine visited ?_
    dsimp only
    split
    · exact fail_bind
    · exact andThen M.fresh fun context =>
        andThen (inferBody body context hts h) fun _ => M.pure (M.con _ [_, _])
  | .paren _ inner, hts, h => by
    unfold Check.inferExpr
    exact visited (inferExpr inner hts h)

theorem inferElems {env env' : TypeEnv} : ∀ (es : List Expr) (elem : Ty), Expr.AllTypesList M.Written es →
    M.Env (Expr.UsesList M.name es) env env' →
    M.Matches (fun _ _ => True) (Check.inferElems env elem es) (Check.inferElems env' (M.onTy elem) es)
  | [], _, _, _ => by
    unfold Check.inferElems
    exact M.pure trivial
  | e :: es, elem, hts, h => by
    unfold Check.inferElems
    refine andThen (inferExpr e hts.1 (M.imp h .inl)) fun t => unified rfl rfl ?_
    exact inferElems es elem hts.2 (M.imp h .inr)

theorem inferExprs {env env' : TypeEnv} : ∀ es : List Expr, Expr.AllTypesList M.Written es →
    M.Env (Expr.UsesList M.name es) env env' →
    M.By (List.map M.onTy) (Check.inferExprs env es) (Check.inferExprs env' es)
  | [], _, _ => by
    unfold Check.inferExprs
    exact M.pure rfl
  | e :: es, hts, h => by
    unfold Check.inferExprs
    refine andThen (inferExpr e hts.1 (M.imp h .inl)) fun t => ?_
    exact andThen (inferExprs es hts.2 (M.imp h .inr)) fun _ => M.pure rfl

theorem inferFields {env env' : TypeEnv} : ∀ fields : List (String × Expr), Expr.AllTypesFields M.Written fields →
    M.Env (Expr.UsesFields M.name fields) env env' →
    M.By (List.map fun f => (f.1, M.onTy f.2)) (Check.inferFields env fields) (Check.inferFields env' fields)
  | [], _, _ => by
    unfold Check.inferFields
    exact M.pure rfl
  | (_, e) :: fields, hts, h => by
    unfold Check.inferFields
    refine andThen (inferExpr e hts.1 (M.imp h .inl)) fun t => ?_
    exact andThen (inferFields fields hts.2 (M.imp h .inr)) fun _ => M.pure rfl

theorem inferBody {env env' : TypeEnv} : ∀ (stmts : List Stmt) (context : Ty), Stmt.AllTypesList M.Written stmts →
    M.Env (Stmt.UsesList M.name stmts) env env' →
    M.By M.onTy (Check.inferBody env context stmts) (Check.inferBody env' (M.onTy context) stmts)
  | [], _, _, _ => by
    unfold Check.inferBody
    exact M.fail
  | .bind _ p e :: rest, context, hts, h => by
    unfold Check.inferBody
    refine andThen (inferExpr e hts.1.2 (M.imp h .inl)) fun t => andThen M.fresh fun value => ?_
    refine unified (M.con _ [_, _]) rfl (M.bind (inferPattern M h p hts.1.1) ?_)
    rintro r _ ⟨rfl, hnames⟩
    refine unified rfl rfl ?_
    split
    · split
      · exact M.pure rfl
      · exact M.fail
    · exact inferBody rest context hts.2 (bindMono hnames (M.imp h .inr))
  | .define _ group :: rest, context, hts, h => by
    unfold Check.inferBody
    dsimp only
    split
    · exact fail_bind
    · refine M.bind (inferGroup group hts.1 h) ?_
      rintro r r' ⟨-, hinner⟩
      exact inferBody rest context hts.2 hinner
  | .typedef _ name type :: rest, context, hts, h => by
    unfold Check.inferBody
    dsimp only
    split
    · exact fail_bind
    · refine M.bind (M.resolve h hts.1) ?_
      rintro t _ ⟨rfl, ht⟩
      exact inferBody rest context hts.2 (M.bindAlias ht h)
  | .code _ _ :: rest, context, hts, h | .importTerms _ _ _ :: rest, context, hts, h => by
    unfold Check.inferBody
    dsimp only
    split
    · exact fail_bind
    · exact inferBody rest context hts.2 h

theorem inferDecl {env env' : TypeEnv} : ∀ d : Decl, d.AllTypes M.Written → M.Env (d.Uses M.name) env env' →
    M.By M.onSchema (Check.inferDecl env false d) (Check.inferDecl env' false d)
  | .mk _ p body, hts, h => by
    unfold Check.inferDecl
    refine andThen (inferExpr body hts.2 h) fun t => M.bind (inferPattern M h p hts.1) ?_
    rintro r _ ⟨rfl, -⟩
    exact unified rfl rfl (M.generalize t h)

theorem inferBodies {env env' : TypeEnv} : ∀ (ds : List Decl) (ts : List Ty), Decl.AllTypesList M.Written ds →
    M.Env (Decl.UsesList M.name ds) env env' →
    M.Matches (fun _ _ => True) (Check.inferBodies env ds ts) (Check.inferBodies env' ds (ts.map M.onTy))
  | [], _, _, _ | .mk _ _ _ :: _, [], _, _ => by
    unfold Check.inferBodies
    exact M.pure trivial
  | .mk _ _ body :: ds, t :: ts, hts, h => by
    unfold Check.inferBodies
    refine andThen (inferExpr body hts.1.2 (M.imp h .inl)) fun u => unified rfl rfl ?_
    exact inferBodies ds ts hts.2 (M.imp h .inr)

theorem inferGroup {V : Prop} {env env' : TypeEnv} : ∀ g : Group, g.AllTypes M.Written →
    M.Env (g.Uses M.name ∨ M.name ∉ g.names ∧ V) env env' →
    M.Matches (fun r r' => r'.1 = r.1.map M.onSchema ∧ M.Env V r.2 r'.2) (Check.inferGroup env g)
      (Check.inferGroup env' g)
  | .single span d, hts, h => by
    have hnames : (Group.single span d).names = d.pattern.names := by simp [Group.names, Group.decls]
    exact M.single (inferDecl d hts (M.imp h .inl)) (M.imp h fun hV => .inr (hnames ▸ hV))
  | .recursive _ ds, hts, h => by
    unfold Check.inferGroup
    refine M.bind (inferMembers h ds hts (M.imp h .inl)) ?_
    rintro ⟨ts, inner⟩ ⟨_, inner'⟩ ⟨rfl, hinner, hlength, hnames⟩
    refine M.bind (inferBodies ds ts hts hinner) fun _ _ _ => M.bind (generalizeAll h ts) ?_
    rintro ss _ ⟨rfl, hss⟩
    exact M.pure ⟨rfl, bindMembers hnames (hss.trans hlength) (M.imp h .inr)⟩

end

end

end Correspondence

end VeriScript.Check
