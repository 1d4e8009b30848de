import VeriScript.Proofs.Run.Likeness
import VeriScript.Proofs.Session.Binding
import VeriScript.Proofs.Typing.SingleMember

/-!
# Recursive groups that do not recurse

A function that does not use its own name can be declared in a recursive group or on its own.  Both declarations have
the same schema.  The functions differ in the environment they keep, but nothing that is evaluated in the sessions
behind them shows the difference.

* `Run.shown` — what is shown of the value of a run, or how the run ends.
* `runStmt_define_ends` — a group whose evaluation cannot fail succeeds as its check does.
* `Session.like_merge_function` — the two sessions are like each other.
* `unused_recursion` — the two declarations succeed together, and what is evaluated behind them is shown alike.
-/

namespace VeriScript

open Reading (lambdas)
open Run (Ends Succeeds)

/-! ## What is shown -/

/-- What is shown of the value of a run, or the reason why the run ends early. -/
def Run.shown (x : Run Value) (w : World) : Except Halt (Except Text.Fault String) :=
  match x w with
  | .ok v w' => .ok (v.shown w'.session.display)
  | .error halt _ => .error halt

theorem Run.Like.shown_eq {x y : Run Value} (h : Run.Like Value.Like x y) {w w' : World}
    (hs : w.session.Like w'.session) : y.shown w' = x.shown w := by
  have hresults := h w w' hs
  unfold Run.shown
  generalize x w = r, y w' = r' at hresults ⊢
  cases hresults with
  | ok result session => simp only [session.display, result.shown_eq]
  | error => rfl

/-! ## The declarations -/

theorem Expr.not_uses_lambdas {e : Expr} {f : String} (h : ¬ e.Uses f) (span : Span) (ps : List Pattern) :
    ¬ (lambdas span ps e).Uses f := by
  induction ps with
  | nil => exact h
  | cons p ps ih => exact fun huses => ih huses.2

section
variable {ctx : Context} (gspan dspan pspan lspan : Span) (f : String) (p : Pattern) (body : Expr)
  (schemas : List Schema) (w : World)

theorem evalGroup_single_function :
    Succeeds (evalGroup ctx.call ctx [] schemas (.single gspan (.mk dspan (.var pspan f none) (.lam lspan p body)))) w
      (· = [.value f schemas.head? (.closure p [] body none)]) := by
  unfold evalGroup evalDecl evalExpr
  refine .bind (.bind (.trace ctx _) fun _ _ _ _ => .pure rfl) fun v w' _ hv => ?_
  subst hv
  exact .pure rfl

theorem evalGroup_recursive_function :
    Succeeds (evalGroup ctx.call ctx [] schemas
        (.recursive gspan [.mk dspan (.var pspan f none) (.lam lspan p body)])) w
      (· = [.recursive [⟨f, schemas.head?, p, body⟩]]) := by
  unfold evalGroup
  cases schemas <;> exact .pure rfl

end

section
variable {ctx : Context} {g : Group} {bound : List Schema → Env}
  (heval : ∀ schemas w, Succeeds (evalGroup ctx.call ctx [] schemas g) w (· = bound schemas)) (run : RunAction)
  (printBinds : Bool) (span : Span) (w : World)
include heval

theorem runStmt_define_ends :
    Ends (runStmt run ctx printBinds (.define span g)) w
      (fun _ w' => ∃ schemas st, checkGroup w.session.typeEnv g .initial = .ok schemas st ∧
        w'.session = w.session.merge (bound schemas))
      fun _ _ => ∃ e st, checkGroup w.session.typeEnv g .initial = .error e st := by
  rw [runStmt_define]
  refine Run.ends_guardDepth ?_ fun _ h => h
  rw [groupEnv, Run.ends_bind, Run.ends_bind]
  refine Run.ends_trace fun w₁ hw1 => ?_
  rw [Run.ends_bind, Run.ends_session, Run.ends_bind, hw1.session_eq]
  refine (Run.check_ends ctx _ w₁).imp (fun schemas w₂ hcheck => ?_) fun halt w₂ hcheck => ?_
  · obtain ⟨hw2, st, hok⟩ := hcheck
    refine (heval schemas w₂).imp (fun env w3 henv => ?_) fun _ _ h => h.elim
    refine ⟨schemas, st, hok, ?_⟩
    rw [henv.2, ← hw1.session_eq, ← hw2.session_eq, ← henv.1.session_eq]
  · obtain ⟨-, e, st, -, herror⟩ := hcheck
    exact ⟨e, st, herror⟩

/-- A group whose evaluation cannot fail succeeds if and only if its check does. -/
theorem runStmt_define_ok_iff :
    (∃ w', runStmt run ctx printBinds (.define span g) w = .ok () w') ↔
      ∃ schemas st, checkGroup w.session.typeEnv g .initial = .ok schemas st := by
  have hends := runStmt_define_ends heval run printBinds span w
  constructor
  · rintro ⟨w', hrun⟩
    obtain ⟨schemas, st, hok, -⟩ := hends.of_ok hrun
    exact ⟨schemas, st, hok⟩
  · rintro ⟨schemas, st, hok⟩
    cases hrun : runStmt run ctx printBinds (.define span g) w with
    | ok a w' => exact ⟨w', rfl⟩
    | error halt w' =>
      obtain ⟨e, st', herror⟩ := hends.of_error hrun
      rw [hok] at herror
      cases herror

end

/-! ## The sessions behind them -/

theorem Session.like_extend (s : Session) (name : String) (schema? : Option Schema) {v v' : Value} (h : v.Like v') :
    (s.extend name schema? v).Like (s.extend name schema? v') where
  values x := by
    rw [Session.values_extend, Session.values_extend]
    by_cases hx : x = name
    · rw [hx, Table.get?_insert_self, Table.get?_insert_self]
      exact .some h
    · rw [Table.get?_insert_of_ne hx, Table.get?_insert_of_ne hx]
      exact Value.Like.option_refl _
  terms := h.terms_extend rfl name schema?
  display := rfl

theorem Session.like_merge_function (s : Session) {f : String} {p : Pattern} {body : Expr}
    (h : ¬ (f ∉ p.names ∧ body.Uses f)) (schema? : Option Schema) :
    (s.merge [.value f schema? (.closure p [] body none)]).Like (s.merge [.recursive [⟨f, schema?, p, body⟩]]) := by
  refine s.like_extend f schema? (.closure (.hidden (fun m hm => ?_) .same))
  rw [List.mem_singleton.1 hm]
  exact h

/-- A function that does not use its own name may be declared as a recursive group or on its own.  In every
environment whose schemas and aliases are closed, both forms are checked with the same result: the same schema for the
function, or none.  In every session with such types, both forms succeed or neither does; behind them names have the
same schemas, and every expression, so every call of the function, has a value that is shown as the same text, or its
evaluation ends early for the same reason. -/
theorem unused_recursion {span gspan gspan' : Span} {f : String} {p : Pattern} {ps : List Pattern} {e : Expr}
    (htypes : (lambdas span (p :: ps) e).AllTypes Ty.NoHoles) (hf : ¬ e.Uses f) :
    let d : Decl := .mk span (.var span f none) (lambdas span (p :: ps) e)
    (∀ env : TypeEnv, env.NoHoles → (∀ a ∈ env.aliases, a.2.NoHoles) → ∀ schemas,
      (∃ st, checkGroup env (.single gspan d) .initial = .ok schemas st) ↔
        ∃ st, checkGroup env (.recursive gspan' [d]) .initial = .ok schemas st) ∧
    ∀ (run : RunAction) (ctx : Context) (printBinds : Bool) (sspan : Span) (w : World),
      w.session.typeEnv.NoHoles → (∀ a ∈ w.session.aliases, a.2.NoHoles) →
      ((∃ w₁, runStmt run ctx printBinds (.define sspan (.single gspan d)) w = .ok () w₁) ↔
        ∃ w₂, runStmt run ctx printBinds (.define sspan (.recursive gspan' [d])) w = .ok () w₂) ∧
      ∀ w₁ w₂, runStmt run ctx printBinds (.define sspan (.single gspan d)) w = .ok () w₁ →
        runStmt run ctx printBinds (.define sspan (.recursive gspan' [d])) w = .ok () w₂ →
        w₂.session.typeEnv = w₁.session.typeEnv ∧
        ∀ (ctx' : Context) (env : Env) (later : Expr),
          (ctx'.eval env later).shown w₂ = (ctx'.eval env later).shown w₁ := by
  intro d
  have hunused : ¬ (lambdas span (p :: ps) e).Uses f := Expr.not_uses_lambdas hf span (p :: ps)
  have hcheck : ∀ env : TypeEnv, env.NoHoles → (∀ a ∈ env.aliases, a.2.NoHoles) → ∀ schemas,
      (∃ st, checkGroup env (.single gspan d) .initial = .ok schemas st) ↔
        ∃ st, checkGroup env (.recursive gspan' [d]) .initial = .ok schemas st :=
    fun env henv haliases schemas =>
      checkGroup_single_iff_recursive henv haliases gspan span span gspan' htypes hunused
  have hsingle : ∀ (ctx : Context) schemas w, Succeeds (evalGroup ctx.call ctx [] schemas (.single gspan d)) w
      (· = [.value f schemas.head? (.closure p [] (lambdas span ps e) none)]) :=
    fun ctx => evalGroup_single_function gspan span span span f p (lambdas span ps e)
  have hrecursive : ∀ (ctx : Context) schemas w, Succeeds (evalGroup ctx.call ctx [] schemas (.recursive gspan' [d])) w
      (· = [.recursive [⟨f, schemas.head?, p, lambdas span ps e⟩]]) :=
    fun ctx => evalGroup_recursive_function gspan' span span span f p (lambdas span ps e)
  refine ⟨hcheck, fun run ctx printBinds sspan w henv haliases => ⟨?_, fun w₁ w₂ hrun1 hrun2 => ?_⟩⟩
  · calc (∃ w₁, runStmt run ctx printBinds (.define sspan (.single gspan d)) w = .ok () w₁)
        ↔ ∃ schemas st, checkGroup w.session.typeEnv (.single gspan d) .initial = .ok schemas st :=
          runStmt_define_ok_iff (hsingle ctx) run printBinds sspan w
      _ ↔ ∃ schemas st, checkGroup w.session.typeEnv (.recursive gspan' [d]) .initial = .ok schemas st :=
          exists_congr fun schemas => hcheck _ henv haliases schemas
      _ ↔ ∃ w₂, runStmt run ctx printBinds (.define sspan (.recursive gspan' [d])) w = .ok () w₂ :=
          (runStmt_define_ok_iff (hrecursive ctx) run printBinds sspan w).symm
  · obtain ⟨schemas1, st1, hok1, hs1⟩ := (runStmt_define_ends (hsingle ctx) run printBinds sspan w).of_ok hrun1
    obtain ⟨schemas2, st2, hok2, hs2⟩ := (runStmt_define_ends (hrecursive ctx) run printBinds sspan w).of_ok hrun2
    obtain ⟨st, hok⟩ := (hcheck _ henv haliases schemas1).1 ⟨st1, hok1⟩
    obtain rfl : schemas2 = schemas1 := by
      rw [hok] at hok2
      cases hok2
      rfl
    have hlike : w₁.session.Like w₂.session := by
      rw [hs1, hs2]
      exact w.session.like_merge_function hunused schemas2.head?
    refine ⟨by rw [hs1, hs2]; rfl, fun ctx' env later => ?_⟩
    exact (ctx'.eval_like env later).shown_eq hlike

/-- The run succeeds, and this text is shown of its value. -/
def Run.shows (text : String) (x : Run Value) (w : World) : Bool :=
  Run.passes (fun v w' => (v.shown w'.session.display).toOption == some text) (x w)

theorem Run.shown_of_shows {text : String} {x : Run Value} {w : World} (h : x.shows text w = true) :
    x.shown w = .ok (.ok text) := by
  obtain ⟨v, w', hx, htext⟩ := Run.exists_ok_of_passes h
  simp only [Run.shown, hx]
  cases hshown : v.shown w'.session.display with
  | ok s =>
    rw [hshown] at htext
    rw [Option.some.inj (beq_iff_eq.1 htext)]
  | error fault =>
    rw [hshown] at htext
    cases htext

/-- `f (x, y) z = if x then [y, z] else [z]` in a new session, and the call `f (true, 1) 2`. -/
theorem unused_recursion_choice :
    let pos := Span.point "" 1 1
    let params : List Pattern :=
      [.tuple pos [.var pos "x" none, .var pos "y" none] none, .var pos "z" none]
    let body : Expr :=
      .ite pos (.var pos "x") (.array pos [.var pos "y", .var pos "z"]) (.array pos [.var pos "z"])
    let d : Decl := .mk pos (.var pos "f" none) (lambdas pos params body)
    let call : Expr :=
      .app pos (.app pos (.var pos "f") (.tuple pos [.bool pos true, .int pos 1])) (.int pos 2)
    let ctx : Context := .standard
    let w := World.blank
    ¬ body.Uses "f" ∧ w.session.typeEnv.NoHoles ∧
      ∃ w₁ w₂, runStmt perform ctx false (.define pos (.single pos d)) w = .ok () w₁ ∧
        runStmt perform ctx false (.define pos (.recursive pos [d])) w = .ok () w₂ ∧
        w₂.session.typeEnv = w₁.session.typeEnv ∧
        (ctx.eval [] call).shown w₁ = .ok (.ok "[1, 2]") ∧ (ctx.eval [] call).shown w₂ = .ok (.ok "[1, 2]") := by
  intro pos params body d call ctx w
  have htypes : (lambdas pos params body).AllTypes Ty.NoHoles := by
    simp [params, body, lambdas, Expr.AllTypes, Expr.AllTypesList, Pattern.AllTypes, Pattern.AllTypesList]
  have hf : ¬ body.Uses "f" := by
    simp [body, Expr.Uses, Expr.UsesList]
  have henv : w.session.typeEnv.NoHoles := (initial_complete .standard).noHoles
  have hpasses : Run.passes (fun _ w₁ => (ctx.eval [] call).shows "[1, 2]" w₁)
      (runStmt perform ctx false (.define pos (.single pos d)) w) = true := by
    decide +kernel
  obtain ⟨⟨⟩, w₁, hrun1, hshows⟩ := Run.exists_ok_of_passes hpasses
  obtain ⟨-, hruns⟩ := @unused_recursion pos pos pos "f" _ _ body htypes hf
  obtain ⟨hiff, hsame⟩ := hruns perform ctx false pos w henv (List.forall_mem_nil _)
  obtain ⟨w₂, hrun2⟩ := hiff.1 ⟨w₁, hrun1⟩
  obtain ⟨htypeEnv, hshown⟩ := hsame w₁ w₂ hrun1 hrun2
  have hcall := Run.shown_of_shows hshows
  exact ⟨hf, henv, w₁, w₂, hrun1, hrun2, htypeEnv, hcall, (hshown ctx [] call).trans hcall⟩

end VeriScript
