import VeriScript.Proofs.Run.Evaluation
import VeriScript.Proofs.Typing.Widening

/-!
# Declarations with more names in the session

A declaration that succeeds also succeeds in a session with more names: its check and its evaluation go through the
same steps and come to the same environment.

* `Session.Widens` — a session with more names.
* `Run.Carries` — what one run achieves without touching the session, the other achieves with more names.
* `evalCongruence_carries` — evaluation.
* `groupEnv_carries` — the environment behind a group of declarations.
* `runStmt_widens` — a group at the top level.
-/

namespace VeriScript

/-- The second session gives the names of the first the same values and schemas; the types of its further names have
no holes. -/
structure Session.Widens (s s' : Session) : Prop where
  values : ∀ x v, Table.get? s.values x = some v → Table.get? s'.values x = some v
  typeEnv : s.typeEnv.Widens s'.typeEnv
  terms : s'.terms = s.terms

/-- What inline terms can use in a local environment depends on what they can use in the session. -/
theorem Session.terms_merge {s s' : Session} (h : s'.terms = s.terms) (env : Env) :
    (s'.merge env).terms = (s.merge env).terms := by
  have hextend : ∀ {s s' : Session} (name : String) (schema? : Option Schema) (v : Value), s'.terms = s.terms →
      (s'.extend name schema? v).terms = (s.extend name schema? v).terms := by
    intro s s' name schema? v h
    simp only [Session.extend, h]
  induction env with
  | nil => exact h
  | cons entry env ih =>
    cases entry with
    | value name schema? v => exact hextend name schema? v ih
    | typedef name t => exact ih
    | recursive members =>
      refine List.foldl_rel (r := fun s s' : Session => s.terms = s'.terms) ih fun m _ s s' hs => ?_
      exact hextend m.name m.schema? _ hs

namespace Run

variable {α β : Type}

/-- Where the first run succeeds it leaves the session as it was, and with more names in the session the second does
the same. -/
def Carries (x y : Run α) : Prop :=
  ∀ (w : World) (s' : Session), w.session.Widens s' → ∀ a w1, x w = .ok a w1 →
    w1.session = w.session ∧ y { w with session := s' } = .ok a { w1 with session := s' }

namespace Carries

variable {x y : Run α} {f g : α → Run β}

theorem pure (a : α) : Carries (Pure.pure a) (Pure.pure a) := by
  intro w s' hs a' w1 hx
  cases hx
  exact ⟨rfl, rfl⟩

theorem throw (halt : Halt) (y : Run α) : Carries (MonadExcept.throw halt) y := by
  intro w s' hs a w1 hx
  cases hx

theorem bind (hx : Carries x y) (hf : ∀ a, Carries (f a) (g a)) : Carries (x >>= f) (y >>= g) := by
  intro w s' hs b w2 hrun
  simp only [Bind.bind, EStateM.bind] at hrun ⊢
  cases hfirst : x w with
  | error halt w1 =>
    rw [hfirst] at hrun
    cases hrun
  | ok a w1 =>
    rw [hfirst] at hrun
    obtain ⟨hsame, hy⟩ := hx w s' hs a w1 hfirst
    rw [hy]
    obtain ⟨hsame', hg⟩ := hf a w1 s' (hsame ▸ hs) b w2 hrun
    exact ⟨hsame'.trans hsame, hg⟩

theorem session {f g : Session → Run β} (hf : ∀ s s', s.Widens s' → Carries (f s) (g s')) :
    Carries (Run.session >>= f) (Run.session >>= g) :=
  fun w s' hs => hf w.session s' hs w s' hs

theorem through (name : Option String) (hx : Carries x y) : Carries (Run.through name x) (Run.through name y) := by
  intro w s' hs a w1 hrun
  have hfirst : x w = .ok a w1 := by
    unfold Run.through at hrun
    split at hrun
    · split at hrun <;> cases hrun
    · exact hrun
  obtain ⟨hsame, hy⟩ := hx w s' hs a w1 hfirst
  exact ⟨hsame, by rw [Run.through, hy]⟩

theorem printLine (text : String) : Carries (Run.printLine text) (Run.printLine text) := by
  intro w s' hs a w1 hx
  cases hx
  exact ⟨rfl, rfl⟩

theorem forM {f : α → Run PUnit} (hf : ∀ a, Carries (f a) (f a)) (items : List α) :
    Carries (items.forM f) (items.forM f) := by
  induction items with
  | nil => exact .pure _
  | cons a items ih => exact .bind (hf a) fun _ => ih

theorem trace (ctx : Context) (text : String) : Carries (ctx.trace text) (ctx.trace text) := by
  unfold Context.trace
  split
  · exact .printLine _
  · exact .pure _

theorem check (ctx : Context) {x y : Check α} (h : Check.Carries Eq x y) : Carries (ctx.check x) (ctx.check y) := by
  have htrace : ∀ st : CheckState, Carries
      (if ctx.options.debug then st.visited.reverse.forM fun kind => Run.printLine ("Checking: " ++ kind) else return)
      (if ctx.options.debug then st.visited.reverse.forM fun kind => Run.printLine ("Checking: " ++ kind)
        else return) := by
    intro st
    split
    · exact .forM (fun _ => .printLine _) _
    · exact .pure _
  unfold Context.check
  dsimp only
  cases hx : x.run .initial with
  | ok a st =>
    obtain ⟨b, hb, rfl⟩ := h .initial a st hx
    rw [show y.run .initial = .ok a st from hb]
    exact .bind (htrace st) fun _ => .pure a
  | error e st =>
    intro w s' hs a w1 hrun
    simp only [Bind.bind, EStateM.bind] at hrun
    split at hrun <;> cases hrun

end Carries

end Run

open Run (Carries)

/-! ## Evaluation -/

theorem evalName_carries (env : Env) (name : String) (span : Span) :
    Carries (evalName env name span) (evalName env name span) := by
  refine .session fun s s' hs => ?_
  cases hlocal : env.lookup name with
  | some v => exact .pure _
  | none =>
    cases hvalue : Table.get? s.values name with
    | none => exact .throw _ _
    | some v =>
      rw [hs.values name v hvalue]
      exact .pure _

theorem evalCode_carries (env : Env) (text : String) (span : Span) :
    Carries (evalCode env text span) (evalCode env text span) := by
  refine .session fun s s' hs => ?_
  dsimp only
  rw [Session.terms_merge hs.terms env]
  cases hterm : parseTerm (s.merge env).terms text with
  | ok t => exact .pure _
  | error fault => exact .throw _ _

theorem evalCongruence_carries (ctx : Context) : EvalCongruence (fun _ => Carries) ctx ctx where
  pure := .pure
  throw halt := .throw halt _
  bind := .bind
  through := .through
  host := rfl
  trace := .trace ctx
  evalName := evalName_carries
  evalCode := evalCode_carries
  notFunction _ _ := .session fun _ _ _ => .throw _ _

/-! ## Declarations -/

/-- The names that a group at the top level binds. -/
def groupEnv (ctx : Context) (span : Span) (g : Group) : Run Env := do
  ctx.trace ("Statement: " ++ (Stmt.define span g).kind ++ " at " ++ span.render)
  let schemas ← ctx.check (checkGroup (← Run.session).typeEnv g)
  evalGroup ctx.call ctx [] schemas g

theorem groupEnv_carries (ctx : Context) (span : Span) (g : Group) :
    Carries (groupEnv ctx span g) (groupEnv ctx span g) := by
  refine .bind (.trace ctx _) fun _ => .session fun s s' hs => ?_
  exact .bind (.check ctx (checkGroup_carries hs.typeEnv g)) fun schemas =>
    (evalCongruence_carries ctx).define [] schemas g

theorem runStmt_define (run : RunAction) (ctx : Context) (printBinds : Bool) (span : Span) (g : Group) :
    runStmt run ctx printBinds (.define span g) = Run.guardDepth span (do
      let env ← groupEnv ctx span g
      Run.setSession ((← Run.session).merge env)) := by
  simp only [runStmt, nextSession, stmtSession, groupEnv, bind_assoc, pure_bind]
  rfl

theorem runStmt_widens {run : RunAction} {ctx : Context} {printBinds : Bool} {span : Span} {g : Group} {w w' : World}
    {s' : Session} (hs : w.session.Widens s') (h : runStmt run ctx printBinds (.define span g) w = .ok () w') :
    ∃ env, w'.session = w.session.merge env ∧
      runStmt run ctx printBinds (.define span g) { w with session := s' } =
        .ok () { w' with session := s'.merge env } := by
  rw [runStmt_define] at h ⊢
  cases henv : groupEnv ctx span g w with
  | error halt w1 =>
    exfalso
    simp only [Run.guardDepth, Bind.bind, EStateM.bind, henv] at h
    split at h
    · cases h
    · cases h
  | ok env w1 =>
    obtain ⟨hsame, hwide⟩ := groupEnv_carries ctx span g w s' hs env w1 henv
    have hw' : w' = { w1 with session := w1.session.merge env } := by
      simp only [Run.guardDepth, Bind.bind, EStateM.bind, henv] at h
      cases h
      rfl
    subst hw'
    refine ⟨env, by rw [hsame], ?_⟩
    simp only [Run.guardDepth, Bind.bind, EStateM.bind, hwide]
    rfl

end VeriScript
