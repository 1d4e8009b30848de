import VeriScript.Proofs.Run.Progress
import VeriScript.Proofs.Session.History
import VeriScript.Proofs.Session.Merging
import VeriScript.Proofs.Term.Declarations

/-!
# Names in inline terms

An inline term sees the terms of the local environment and those of the session.  Bindings of a block go to the local
environment and its declarations to the session, together with the terms of the local environment at that time.  So
the newest local term of a name comes first, and only a name without one is looked up among the declarations.

* `Env.term?` — the newest term of a name in a local environment.
* `Giving`, `Executes` — what statements of a block give terms to, and how they are executed.
* `runBody_executes` — a block that gets past some statements has executed them.
* `Executes.term?_eq`, `Executes.get?_terms` — the local environment and the session behind them.
* `inline_names_resolve` — what the names of an inline term stand for, at any point of a block.
* `declaration_behind_binding` — a declaration that an inline term does not see.
-/

namespace VeriScript

open Run (Ends)

/-! ## Local environments -/

/-- The newest term that a local environment has under a name. -/
def Env.term? (env : Env) (x : String) : Option Term :=
  env.entries.findSome? (LocalEntry.term? x)

theorem Env.term?_cons_recursive (members : List Member) (env : Env) (x : String) :
    Env.term? (.recursive members :: env) x = env.term? x := by
  have hnone : (members.reverse.map fun m =>
      LocalEntry.bound ⟨m.name, m.schema?, m.value (.recursive members :: env)⟩).findSome? (LocalEntry.term? x) =
        none := by
    simp [List.findSome?_eq_none_iff, LocalEntry.term?, Member.value, Value.term?]
  rw [Env.term?, Env.entries, List.findSome?_append, hnone, Option.none_or]
  rfl

theorem Env.term?_append (inner env : Env) (x : String) :
    Env.term? (inner ++ env) x = (inner.term? x).or (env.term? x) := by
  induction inner with
  | nil => rfl
  | cons b inner ih =>
    rw [List.cons_append]
    cases b with
    | value name schema? v =>
      simp only [Env.term?, Env.entries, List.findSome?_cons] at ih ⊢
      rw [ih]
      cases LocalEntry.term? x (.bound ⟨name, schema?, v⟩) <;> rfl
    | typedef name t => exact ih
    | recursive members => rw [term?_cons_recursive, term?_cons_recursive, ih]

theorem Env.bindParts_append (env : Env) (parts : List Part) :
    env.bindParts parts = Env.bindParts [] parts ++ env := by
  have happend : ∀ (inner : Env), Env.bindParts (inner ++ env) parts = Env.bindParts inner parts ++ env := by
    induction parts with
    | nil => exact fun _ => rfl
    | cons p parts ih => exact fun inner => ih (.value p.name p.schema? p.value :: inner)
  exact happend []

theorem Session.get?_terms_merge (s : Session) (env : Env) (x : String) :
    Table.get? (s.merge env).terms x = (env.term? x).or (Table.get? s.terms x) := by
  rw [s.merge_eq]
  exact Session.lookup_foldr (Table.get? ·.terms x) (LocalEntry.term? x) (·.get?_terms_add · x) env.entries s

/-! ## Statements of a block -/

/-- What a statement of a block gives terms to. -/
inductive Giving where
  /-- Names of the local environment, by a binding. -/
  | binding (new : Env)
  /-- Names of the session, by a declaration in a local environment. -/
  | declaration (terms : TermEnv) (env : Env)
  /-- Names of the session, by an action that is run: the terms before and behind it. -/
  | action (before behind : TermEnv)

namespace Giving

/-- The term that a name of the local environment gets. -/
def local? (x : String) : Giving → Option Term
  | .binding new => new.term? x
  | .declaration _ _ | .action _ _ => none

/-- The term that a name of the session gets.  A declaration carries the terms of its local environment along, and an
action gives a term to a name if it changes what the name stands for. -/
def shared? (x : String) : Giving → Option Term
  | .binding _ => none
  | .declaration terms env => (Table.get? terms x).or (env.term? x)
  | .action before behind => if Table.get? before x = Table.get? behind x then none else Table.get? behind x

theorem shared?_action {before behind : TermEnv} {x : String} (h : Table.has before x → Table.has behind x) :
    ((Giving.action before behind).shared? x).or (Table.get? before x) = Table.get? behind x := by
  by_cases hsame : Table.get? before x = Table.get? behind x
  · rw [shared?, if_pos hsame, Option.none_or, hsame]
  · rw [shared?, if_neg hsame]
    cases hbehind : Table.get? behind x with
    | some t => rfl
    | none =>
      have hbefore : ¬ Table.has before x := fun hhas => by simpa [Table.has, hbehind] using h hhas
      simpa [Table.has] using hbefore

end Giving

/-- The statements of a block are executed, from a local environment in a world to another one, and give terms to
names, the newest first. -/
inductive Executes (run : RunAction) (ctx : Context) : Env → World → List Stmt → List Giving → Env → World → Prop
  | nil (env : Env) (w : World) : Executes run ctx env w [] [] env w
  | bind {env env' : Env} {w w₁ w₂ w' : World} {span : Span} {p : Pattern} {e : Expr} {action result : Value}
      {parts : List Part} {stmts : List Stmt} {givings : List Giving}
      (value : ctx.eval env e w = .ok action w₁) (runs : run ctx action w₁ = .ok result w₂)
      (bound : p.destructure none result = .ok parts)
      (rest : Executes run ctx (Env.bindParts [] parts ++ env) w₂ stmts givings env' w') :
      Executes run ctx env w (.bind span p e :: stmts)
        (givings ++ [.binding (Env.bindParts [] parts), .action w₁.session.terms w₂.session.terms]) env' w'
  | define {env new env' : Env} {w w₁ w' : World} {span : Span} {g : Group} {stmts : List Stmt} {givings : List Giving}
      (group : evalGroup ctx.call ctx env [] g w = .ok (new ++ env) w₁)
      (rest : Executes run ctx (new ++ env) w₁ stmts givings env' w') :
      Executes run ctx env w (.define span g :: stmts) (givings ++ [.binding new]) env' w'
  | code {env env' : Env} {w w' : World} {span : Span} {text : String} {decls : List (String × RawTerm)}
      {given terms : TermEnv} {stmts : List Stmt} {givings : List Giving}
      (read : readTermText Reading.termDecls text = .ok decls)
      (declared : declaredTerms decls (w.session.merge env).terms = .ok given)
      (elaborated : elaborateDecls none decls (w.session.merge env).terms (w.session.merge env).terms = .ok terms)
      (rest : Executes run ctx env { w with session := { w.session with terms := terms } } stmts givings env' w') :
      Executes run ctx env w (.code span text :: stmts) (givings ++ [.declaration given env]) env' w'
  | typedef {env env' : Env} {w w' : World} {span : Span} {name : String} {t : Ty} {stmts : List Stmt}
      {givings : List Giving} (rest : Executes run ctx (.typedef name t :: env) w stmts givings env' w') :
      Executes run ctx env w (.typedef span name t :: stmts) givings env' w'

/-- A group adds entries to the local environment. -/
theorem evalGroup_appends (ctx : Context) (env : Env) (g : Group) (w : World) :
    Ends (evalGroup ctx.call ctx env [] g) w (fun env' _ => ∃ new, env' = new ++ env) fun _ _ => True := by
  cases g with
  | single span d =>
    obtain ⟨dspan, p, e⟩ := d
    rw [evalGroup, evalDecl, Run.ends_bind]
    refine (Run.ends_self _ w).imp (fun v w' _ => ?_) fun _ _ _ => trivial
    refine Run.ends_orRuntimeError (fun env' henv' => ?_) fun _ _ => trivial
    obtain ⟨parts, -, rfl⟩ := exists_ok_of_map henv'
    exact ⟨_, env.bindParts_append parts⟩
  | recursive span ds =>
    rw [evalGroup, Run.ends_bind]
    exact Run.ends_orRuntimeError (fun members _ => ⟨[.recursive members], rfl⟩) fun _ _ => trivial

section
variable {run : RunAction} {ctx : Context}

variable {env : Env} {w w₁ w₂ : World} {span : Span}

theorem runBody_bind {p : Pattern} {e : Expr} {action result : Value} {rest : List Stmt}
    (heval : ctx.eval env e w = .ok action w₁) (hrun : run ctx action w₁ = .ok result w₂) (hrest : rest ≠ []) :
    runBody run ctx env (.bind span p e :: rest) w =
      (do runBody run ctx (← Run.orRuntimeError (env.bindPattern p none result)) rest) w₂ := by
  refine (Run.bind_of_ok heval).trans ((Run.bind_of_ok hrun).trans ?_)
  simp only [List.isEmpty_eq_false_iff.2 hrest, Bool.false_and, Bool.false_eq_true, if_false]

theorem runBody_code {text : String} {decls : List (String × RawTerm)} {terms : TermEnv} {rest : List Stmt}
    (hread : readTermText Reading.termDecls text = .ok decls)
    (hterms : elaborateDecls none decls (w.session.merge env).terms (w.session.merge env).terms = .ok terms) :
    runBody run ctx env (.code span text :: rest) w =
      runBody run ctx env rest { w with session := { w.session with terms := terms } } := by
  have hparse : parseTermDecls (w.session.merge env).terms none text = .ok terms := by
    rw [parseTermDecls, hread]
    exact hterms
  rw [runBody]
  show (do
    let terms ← Run.orTermError span (parseTermDecls (w.session.merge env).terms none text)
    Run.setSession { w.session with terms := terms }
    runBody run ctx env rest) w = _
  rw [hparse]
  rfl

variable (run ctx) in
theorem runBody_executes (env : Env) (stmts : List Stmt) (w : World) :
    (∃ halt w', ∀ rest ≠ [], runBody run ctx env (stmts ++ rest) w = .error halt w') ∨
      ∃ givings env' w', Executes run ctx env w stmts givings env' w' ∧
        ∀ rest ≠ [], runBody run ctx env (stmts ++ rest) w = runBody run ctx env' rest w' := by
  induction stmts generalizing env w with
  | nil => exact .inr ⟨[], env, w, .nil env w, fun _ _ => rfl⟩
  | cons stmt stmts ih =>
    have happend : ∀ {rest : List Stmt}, rest ≠ [] → stmts ++ rest ≠ [] := List.append_ne_nil_of_right_ne_nil stmts
    cases stmt with
    | bind span p e =>
      cases heval : ctx.eval env e w with
      | error halt w₁ => exact .inl ⟨halt, w₁, fun _ _ => Run.bind_of_error heval⟩
      | ok action w₁ =>
        cases hrun : run ctx action w₁ with
        | error halt w₂ =>
          exact .inl ⟨halt, w₂, fun _ _ => (Run.bind_of_ok heval).trans (Run.bind_of_error hrun)⟩
        | ok result w₂ =>
          cases hparts : p.destructure none result with
          | error error =>
            refine .inl ⟨(ScriptError.runtime error).halt, w₂, fun rest hne => ?_⟩
            rw [List.cons_append, runBody_bind heval hrun (happend hne), Env.bindPattern, hparts]
            rfl
          | ok parts =>
            have hstep : ∀ rest ≠ [], runBody run ctx env (.bind span p e :: stmts ++ rest) w =
                runBody run ctx (Env.bindParts [] parts ++ env) (stmts ++ rest) w₂ := by
              intro rest hne
              rw [List.cons_append, runBody_bind heval hrun (happend hne), Env.bindPattern, hparts,
                ← env.bindParts_append]
              rfl
            rcases ih (Env.bindParts [] parts ++ env) w₂ with ⟨halt, w', hfails⟩ | ⟨givings, env', w', hrest, hbody⟩
            · exact .inl ⟨halt, w', fun rest hne => (hstep rest hne).trans (hfails rest hne)⟩
            · exact .inr ⟨_, env', w', .bind heval hrun hparts hrest,
                fun rest hne => (hstep rest hne).trans (hbody rest hne)⟩
    | define span g =>
      cases hgroup : evalGroup ctx.call ctx env [] g w with
      | error halt w₁ => exact .inl ⟨halt, w₁, fun _ _ => Run.bind_of_error hgroup⟩
      | ok env₁ w₁ =>
        obtain ⟨new, rfl⟩ := (evalGroup_appends ctx env g w).of_ok hgroup
        rcases ih (new ++ env) w₁ with ⟨halt, w', hfails⟩ | ⟨givings, env', w', hrest, hbody⟩
        · exact .inl ⟨halt, w', fun rest hne => (Run.bind_of_ok hgroup).trans (hfails rest hne)⟩
        · exact .inr ⟨_, env', w', .define hgroup hrest, fun rest hne => (Run.bind_of_ok hgroup).trans (hbody rest hne)⟩
    | code span text =>
      cases hparse : parseTermDecls (w.session.merge env).terms none text with
      | error fault =>
        refine .inl ⟨.error (.term ⟨fault, span⟩), w, fun rest _ => ?_⟩
        show (do
          let terms ← Run.orTermError span (parseTermDecls (w.session.merge env).terms none text)
          Run.setSession { w.session with terms := terms }
          runBody run ctx env (stmts ++ rest)) w = _
        rw [hparse]
        rfl
      | ok terms =>
        obtain ⟨decls, hread, hterms⟩ := exists_ok_of_bind hparse
        obtain ⟨given, hgiven, -⟩ := elaborateDecls_declaredTerms hterms
        rcases ih env { w with session := { w.session with terms := terms } } with
          ⟨halt, w', hfails⟩ | ⟨givings, env', w', hrest, hbody⟩
        · exact .inl ⟨halt, w', fun rest hne => (runBody_code hread hterms).trans (hfails rest hne)⟩
        · exact .inr ⟨_, env', w', .code hread hgiven hterms hrest,
            fun rest hne => (runBody_code hread hterms).trans (hbody rest hne)⟩
    | typedef span name t =>
      rcases ih (.typedef name t :: env) w with ⟨halt, w', hfails⟩ | ⟨givings, env', w', hrest, hbody⟩
      · exact .inl ⟨halt, w', hfails⟩
      · exact .inr ⟨givings, env', w', .typedef hrest, hbody⟩
    | importTerms span file qualifier => exact .inl ⟨_, w, fun _ _ => rfl⟩

/-! ## What names stand for -/

theorem Executes.term?_eq {env env' : Env} {w w' : World} {stmts : List Stmt} {givings : List Giving}
    (h : Executes run ctx env w stmts givings env' w') (x : String) :
    env'.term? x = (givings.findSome? (Giving.local? x)).or (env.term? x) := by
  induction h with
  | nil => rfl
  | @bind _ _ _ _ _ _ _ _ _ _ _ parts _ givings _ _ _ _ ih =>
    rw [ih, Env.term?_append, List.findSome?_append, Option.or_assoc]
    cases hnew : Env.term? (Env.bindParts [] parts) x <;> simp [Giving.local?, hnew]
  | @define _ new _ _ _ _ _ _ _ _ _ _ ih =>
    rw [ih, Env.term?_append, List.findSome?_append, Option.or_assoc]
    cases hnew : Env.term? new x <;> simp [Giving.local?, hnew]
  | code _ _ _ _ ih => simp [ih, List.findSome?_append, Giving.local?]
  | typedef _ ih => exact ih

/-- A name of the session stands for what the newest declaration or action gives it, or else for what it stood for
before. -/
theorem Executes.get?_terms
    (hkeeps : ∀ ctx v w v' w', run ctx v w = .ok v' w' →
      ∀ x, Table.has w.session.terms x → Table.has w'.session.terms x)
    {env env' : Env} {w w' : World} {stmts : List Stmt} {givings : List Giving}
    (h : Executes run ctx env w stmts givings env' w') (x : String) :
    Table.get? w'.session.terms x =
      (givings.findSome? (Giving.shared? x)).or (Table.get? w.session.terms x) := by
  induction h with
  | nil => rfl
  | @bind env _ w w₁ w₂ _ _ _ e _ _ _ _ givings value runs _ _ ih =>
    have hsame : w₁.session = w.session := ((ctx.eval_quiet env e w).of_ok value).session_eq
    have haction := Giving.shared?_action (hkeeps _ _ _ _ _ runs x)
    rw [ih, ← haction, List.findSome?_append, Option.or_assoc, hsame]
    exact congrArg _ (congrArg (Option.or · _) List.findSome?_singleton.symm)
  | @define env new _ w w₁ _ _ g _ _ group _ ih =>
    have hsame : w₁.session = w.session := ((ctx.evalGroup_quiet env [] g w).of_ok group).session_eq
    rw [ih, List.findSome?_append, Option.or_assoc, hsame]
    rfl
  | @code env _ w _ _ _ _ given terms _ givings _ declared elaborated _ ih =>
    obtain ⟨given', hgiven, hget⟩ := elaborateDecls_declaredTerms elaborated
    cases declared.symm.trans hgiven
    have hterms : Table.get? terms x =
        ((Giving.declaration given env).shared? x).or (Table.get? w.session.terms x) := by
      rw [hget, w.session.get?_terms_merge env, Giving.shared?, Option.or_assoc]
    rw [ih, List.findSome?_append, Option.or_assoc, List.findSome?_singleton, ← hterms]
  | typedef _ ih => exact ih

end

/-! ## Inline terms -/

/-- An action keeps the names that inline terms can use. -/
theorem runAction_has_terms (depth : Nat) (ctx : Context) (v : Value) (w : World) (v' : Value) (w' : World)
    (h : runAction depth ctx v w = .ok v' w') (x : String) (hx : Table.has w.session.terms x) :
    Table.has w'.session.terms x := by
  have htogether : Run.Together False ctx.host w.cwd (runAction depth ctx v) (runAction depth ctx v) :=
    runAction_together depth w.cwd ctx v
  have hadvances := (htogether w rfl).2.advances
  rw [Run.after_of_ok h] at hadvances
  exact hadvances.session.has_terms x hx

/-- Run the statements of a block, up to a point where an inline term is evaluated: in scopes inside the local
environment behind the statements `before`, at a time when the statements `later` have been run too, as in a function
that is defined at one point of the block and called at another.  If the block gets there, then a name of the inline
term stands for its newest local term: in those scopes, by a binding among `before`, or around the block.  If it has
none, it stands for the newest term given to it in the session, by a declaration or by an action among all of these
statements; and else for what it stood for in the session before the block. -/
theorem inline_names_resolve (depth : Nat) (ctx : Context) (env₀ : Env) (w₀ : World) (before later : List Stmt) :
    let run := runAction depth
    (∃ halt w, ∀ rest ≠ [], runBody run ctx env₀ (before ++ later ++ rest) w₀ = .error halt w) ∨
      ∃ given₁ env₁ w₁ given₂ env₂ w₂,
        Executes run ctx env₀ w₀ before given₁ env₁ w₁ ∧ Executes run ctx env₁ w₁ later given₂ env₂ w₂ ∧
        (∀ rest ≠ [], runBody run ctx env₀ (before ++ later ++ rest) w₀ = runBody run ctx env₂ rest w₂) ∧
        ∀ (inner : Env) (text : String) (span : Span), ∃ scope : TermEnv,
          evalCode (inner ++ env₁) text span w₂ = (Value.term <$> Run.orTermError span (parseTerm scope text)) w₂ ∧
          ∀ x, Table.get? scope x =
            ((inner.term? x).or ((given₁.findSome? (Giving.local? x)).or (env₀.term? x))).or
              (((given₂ ++ given₁).findSome? (Giving.shared? x)).or (Table.get? w₀.session.terms x)) := by
  intro run
  have hkeeps := runAction_has_terms depth
  rcases runBody_executes run ctx env₀ before w₀ with
    ⟨halt, w, hfails⟩ | ⟨given₁, env₁, w₁, hbefore, hbody1⟩
  · refine .inl ⟨halt, w, fun rest hne => ?_⟩
    rw [List.append_assoc, hfails _ (List.append_ne_nil_of_right_ne_nil later hne)]
  rcases runBody_executes run ctx env₁ later w₁ with
    ⟨halt, w, hfails⟩ | ⟨given₂, env₂, w₂, hlater, hbody2⟩
  · refine .inl ⟨halt, w, fun rest hne => ?_⟩
    rw [List.append_assoc, hbody1 _ (List.append_ne_nil_of_right_ne_nil later hne), hfails rest hne]
  refine .inr ⟨given₁, env₁, w₁, given₂, env₂, w₂, hbefore, hlater, fun rest hne => ?_, fun inner text span => ?_⟩
  · rw [List.append_assoc, hbody1 _ (List.append_ne_nil_of_right_ne_nil later hne), hbody2 rest hne]
  · refine ⟨(w₂.session.merge (inner ++ env₁)).terms, rfl, fun x => ?_⟩
    have hshared : Table.get? w₂.session.terms x =
        ((given₂ ++ given₁).findSome? (Giving.shared? x)).or (Table.get? w₀.session.terms x) := by
      rw [hlater.get?_terms hkeeps, hbefore.get?_terms hkeeps, List.findSome?_append, Option.or_assoc]
    rw [Session.get?_terms_merge, Env.term?_append, hbefore.term?_eq, hshared]

def Session.hasTerm (s : Session) (x : String) (t : Term) : Bool :=
  match Table.get? s.values x with
  | some (.term u) => u = t
  | _ => false

theorem Session.get?_of_hasTerm {s : Session} {x : String} {t : Term} (h : s.hasTerm x t = true) :
    Table.get? s.values x = some (.term t) := by
  unfold Session.hasTerm at h
  split at h
  · rename_i u heq
    rw [heq, of_decide_eq_true h]
  · cases h

/-- A block in which a name is bound to the term `1` and then declared as `2`, and an inline term behind that. -/
def shadowedDeclaration : String :=
  "y <- do \x7b x <- return \x7b\x7b 1 \x7d\x7d; let \x7b\x7b x = 2; \x7d\x7d;" ++
  " return \x7b\x7b x \x7d\x7d; \x7d;"

/-- The inline term does not see the declaration, though it is the newest and has reached the session. -/
theorem declaration_behind_binding :
    ∃ w, runFresh shadowedDeclaration = .ok () w ∧ Table.get? w.session.terms "x" = some (.ofInt 2) ∧
      Table.get? w.session.values "y" = some (.term (.ofInt 1)) := by
  have hpasses : Run.passes
      (fun _ w => w.session.hasTerm "y" (.ofInt 1) && (Table.get? w.session.terms "x" == some (.ofInt 2)))
      (runFresh shadowedDeclaration) = true := by decide +kernel
  obtain ⟨_, w, hrun, hw⟩ := Run.exists_ok_of_passes hpasses
  obtain ⟨hy, hx⟩ := Bool.and_eq_true_iff.1 hw
  exact ⟨w, hrun, beq_iff_eq.1 hx, Session.get?_of_hasTerm hy⟩

end VeriScript
