import VeriScript.Proofs.Run.Typing
import VeriScript.Proofs.Value.Names

/-!
# Actions keep to types

Running an action may change the session, so the names of the session may get more types on the way.

* `RunInvariant` — a condition on scopes and sessions that running keeps.
* `Run.Performs` — a run that keeps the condition and the kind of the work at hand.
* `RunTyped` — a way of running actions that keeps to their types.
* `runBody_performs`, `runEach_performs` — blocks and loops, over such a way.
-/

namespace VeriScript

open Run (Ends ends_bind Gives)

/-- A condition on scopes and sessions that what actions do to sessions keeps. -/
structure RunInvariant (allowed : Command → Prop) (safe : Halt → Prop) (I : Scope → Session → Prop) : Prop where
  provides : ∀ {G s}, I G s → s.Provides allowed G
  /-- Terms, proofs and the display do not matter. -/
  frame : ∀ {G s} (s' : Session), I G s → s'.values = s.values → s'.types = s.types → s'.aliases = s.aliases → I G s'
  enable : ∀ {G s} (life : Lifecycle), I G s → ∃ G', G.Below G' ∧ I G' (s.enable life)
  safe : ∀ {halt : Halt}, halt.isShape = false → safe halt

theorem Scope.Below.refl (G : Scope) : G.Below G := fun _ _ h => h

theorem Scope.Below.trans {G1 G2 G3 : Scope} (h : G1.Below G2) (h' : G2.Below G3) : G1.Below G3 :=
  fun x τ hx => h' x τ (h x τ hx)

namespace Run

variable {α β : Type}

/-- However it ends, the run keeps the condition, for names with more types, and the kind of the work at hand. -/
def Performs (safe : Halt → Prop) (I : Scope → Session → Prop) (G : Scope) (x : Run α) (w : World)
    (Q : Scope → α → Prop) : Prop :=
  Ends x w
    (fun a w' => w'.work.kind = w.work.kind ∧ ∃ G', G.Below G' ∧ I G' w'.session ∧ Q G' a)
    (fun halt w' => w'.work.kind = w.work.kind ∧ (∃ G', G.Below G' ∧ I G' w'.session) ∧ safe halt)

namespace Performs

variable {allowed : Command → Prop} {safe : Halt → Prop} {I : Scope → Session → Prop} {G : Scope} {x : Run α}
  {w : World} {Q Q' : Scope → α → Prop}

theorem pure {a : α} (hw : I G w.session) (h : Q G a) : Performs safe I G (Pure.pure a) w Q :=
  ⟨rfl, G, .refl G, hw, h⟩

theorem throw {halt : Halt} (hw : I G w.session) (h : safe halt) :
    Performs safe I G (MonadExcept.throw halt : Run α) w Q :=
  ⟨rfl, ⟨G, .refl G, hw⟩, h⟩

theorem failAt {fault : RuntimeFault} {span : Option Span} (hinv : RunInvariant allowed safe I) (hw : I G w.session)
    (h : fault.isShape = false) : Performs safe I G (Run.failAt fault span : Run α) w Q :=
  .throw hw (hinv.safe ((ScriptError.isShape_halt _).trans h))

variable {R : Scope → β → Prop} {f : α → Run β}

theorem bind (hx : Performs safe I G x w Q)
    (hf : ∀ G' a w', G.Below G' → w'.work.kind = w.work.kind → I G' w'.session → Q G' a →
      Performs safe I G' (f a) w' R) : Performs safe I G (x >>= f) w R := by
  unfold Performs at *
  rw [ends_bind]
  refine hx.imp (fun a w1 ⟨hkind, G1, hG1, hI, ha⟩ => ?_) (fun _ _ h => h)
  refine (hf G1 a w1 hG1 hkind hI ha).imp (fun b w2 h => ?_) (fun halt w2 h => ?_)
  · obtain ⟨hkind', G2, hG2, hI', hb⟩ := h
    exact ⟨hkind'.trans hkind, G2, hG1.trans hG2, hI', hb⟩
  · obtain ⟨hkind', ⟨G2, hG2, hI'⟩, hsafe⟩ := h
    exact ⟨hkind'.trans hkind, ⟨G2, hG1.trans hG2, hI'⟩, hsafe⟩

theorem session_bind {s : Session} {f : Session → Run β} (hs : w.session = s) (h : Performs safe I G (f s) w R) :
    Performs safe I G (Run.session >>= f) w R := by
  subst hs
  exact h

theorem ok_bind {a : α} (h : Performs safe I G (f a) w R) : Performs safe I G (Run.orFail (.ok a) >>= f) w R := h

/-- A run that prints at most goes on in the same scope and session, with the same work at hand. -/
theorem gives_bind_in {P : α → Prop} {s : Session}
    (hinv : RunInvariant allowed safe I) (hs : w.session = s) (hw : I G s) (hx : Gives s x P)
    (hf : ∀ a w', w'.session = s → w'.work.kind = w.work.kind → P a → Performs safe I G (f a) w' R) :
    Performs safe I G (x >>= f) w R := by
  unfold Performs at *
  rw [ends_bind]
  refine (hx w hs).imp (fun a w' ⟨hprinted, ha⟩ => ?_) (fun halt w' ⟨hprinted, hshape⟩ => ?_)
  · have hk := hf a w' (hprinted.session_eq.trans hs)
    rw [hprinted.work_eq] at hk
    exact hk rfl ha
  · rw [hprinted.work_eq, hprinted.session_eq, hs]
    exact ⟨rfl, ⟨G, .refl G, hw⟩, hinv.safe hshape⟩

theorem gives_bind {P : α → Prop} (hinv : RunInvariant allowed safe I) (hw : I G w.session) (hx : Gives w.session x P)
    (hf : ∀ a w', I G w'.session → w'.work.kind = w.work.kind → P a → Performs safe I G (f a) w' R) :
    Performs safe I G (x >>= f) w R :=
  .gives_bind_in hinv rfl hw hx fun a w' hs => hf a w' (hs ▸ hw)

theorem setSession {s : Session} {G' : Scope} (hG : G.Below G') (hs : I G' s) :
    Performs safe I G (Run.setSession s) w fun G'' _ => G'' = G' :=
  ⟨rfl, G', hG, hs, rfl⟩

theorem draw {count : Nat} (hw : I G w.session) : Performs safe I G (Run.draw count) w fun G' _ => G' = G :=
  ⟨rfl, G, .refl G, hw, rfl⟩

theorem setWork {work : Work} (hw : I G w.session) (hkind : work.kind = w.work.kind) :
    Performs safe I G (Run.setWork work) w fun G' _ => G' = G :=
  ⟨hkind, G, .refl G, hw, rfl⟩

end Performs

namespace Gives

variable {s : Session} {x : Run α}

theorem print (ctx : Context) (level : Level) (text : String) : Gives s (ctx.print level text) fun _ => True :=
  fun _ _ => ends_print fun _ h => ⟨h, trivial⟩

theorem printText (ctx : Context) (level : Level) (frame : String → String) (r : Except Text.Fault String) :
    Gives s (do ctx.print level (frame (← Run.write r))) fun _ => True :=
  .bind (.write r) fun _ _ => .print _ _ _

theorem forM {f : α → Run PUnit} (hf : ∀ a, Gives s (f a) fun _ => True) (as : List α) :
    Gives s (as.forM f) fun _ => True := by
  induction as with
  | nil => exact .pure trivial
  | cons a as ih => exact .bind (hf a) fun _ _ => ih

end Gives

end Run

open Run (Performs)

/-- Running an action of a type in its context gives a value of the type. -/
def RunTyped (allowed : Command → Prop) (safe : Halt → Prop) (I : Scope → Session → Prop) (run : RunAction) :
    Prop :=
  ∀ {G : Scope} {v : Value} {τ : Mono} {kind : ContextKind} {xs : List Mono} {w : World} (ctx : Context),
    HasTy allowed G v (.block (.con kind.name xs) τ) → w.work.kind = kind → I G w.session →
      Performs safe I G (run ctx v) w (HasTy allowed · · τ)

section

variable {allowed : Command → Prop} {safe : Halt → Prop} {I : Scope → Session → Prop} {run : RunAction}
  (hinv : RunInvariant allowed safe I) (hrun : RunTyped allowed safe I run) (ctx : Context) {kind : ContextKind}
  {xs : List Mono}

include hinv hrun

/-! ## Blocks -/

/-- The action of a statement: what it gives when it is run. -/
theorem evalRun_performs {al : Aliases} {Γ G : Scope} {e : Expr} {τ : Mono} {env : Env} {w : World}
    (he : HasType al Γ e (.block (.con kind.name xs) τ)) (henv : EnvTy allowed G env Γ) (hkind : w.work.kind = kind)
    (hw : I G w.session) :
    Performs safe I G (do run ctx (← ctx.eval env e)) w (HasTy allowed · · τ) := by
  refine .gives_bind hinv hw (ctx.eval_gives (hinv.provides hw) he henv) fun v w1 hw1 hkind1 hv => ?_
  exact hrun ctx hv (hkind1.trans hkind) hw1

theorem runBody_performs {al : Aliases} {Γ : Scope} {τ : Mono} {env : Env} {G : Scope} {w : World} :
    ∀ body : List Stmt, HasBody al Γ (.con kind.name xs) body τ → EnvTy allowed G env Γ →
    w.work.kind = kind → I G w.session → Performs safe I G (runBody run ctx env body) w (HasTy allowed · · τ)
  | [], h, _, _, _ => by cases h
  | [.bind _ p e], h, henv, hkind, hw => by
    unfold runBody
    rw [← bind_assoc]
    cases h with
    | last action result ignored =>
      refine (evalRun_performs hinv hrun ctx action henv hkind hw).bind fun G' v w' hG _ hI hv => ?_
      simp only [List.isEmpty_nil, ignored, Bool.and_self, if_true]
      exact .pure hI hv
  | .bind _ p e :: stmt :: rest, h, henv, hkind, hw => by
    unfold runBody
    rw [← bind_assoc]
    cases h with
    | bind action result next =>
      refine (evalRun_performs hinv hrun ctx action henv hkind hw).bind fun G' v w' hG hkind' hI hv => ?_
      simp only [List.isEmpty_cons, Bool.false_and, Bool.false_eq_true, if_false]
      refine .gives_bind hinv hI (.orRuntimeError (bindPattern_one_meets result hv (henv.mono hG) none))
        fun inner w'' hI' hkind'' hinner => ?_
      exact runBody_performs (stmt :: rest) next hinner (hkind''.trans (hkind'.trans hkind)) hI'
  | .define _ g :: rest, h, henv, hkind, hw => by
    cases h with
    | define group next =>
      unfold runBody
      have hs := hinv.provides hw
      refine .gives_bind hinv hw (evalGroup_gives hs (applyValue_gives hs ctx _) ctx g [] group henv)
        fun inner w' hw' hkind' hinner => ?_
      exact runBody_performs rest next hinner (hkind'.trans hkind) hw'
  | .typedef _ _ _ :: rest, h, henv, hkind, hw => by
    cases h with
    | typedef written next =>
      unfold runBody
      exact runBody_performs rest next (.typedef henv) hkind hw
  | .code span text :: rest, h, henv, hkind, hw => by
    cases h with
    | code next =>
      unfold runBody
      refine .session_bind rfl ?_
      refine .gives_bind hinv hw (.orTermError (Q := fun _ => True) fun _ => trivial) fun terms w1 _ hkind1 _ => ?_
      refine .bind (.setSession (.refl G) (hinv.frame _ hw rfl rfl rfl)) ?_
      rintro _ _ w2 - hkind2 hI rfl
      exact runBody_performs rest next henv (hkind2.trans (hkind1.trans hkind)) hI
  | .importTerms _ _ _ :: rest, _, _, _, hw => by
    unfold runBody
    exact .failAt hinv hw rfl

theorem runEach_performs {fn : Value} {τ σ : Mono} {G : Scope} {w : World} :
    ∀ items : List Value, (∀ v ∈ items, HasTy allowed G v τ) →
    HasTy allowed G fn (.fn τ (.block (.con kind.name xs) σ)) → w.work.kind = kind → I G w.session →
    Performs safe I G (runEach run ctx fn items) w fun G' vs => ∀ v ∈ vs, HasTy allowed G' v σ
  | [], _, _, _, hw => .pure hw nofun
  | item :: items, hitems, hfn, hkind, hw => by
    obtain ⟨hitem, hitems⟩ := List.forall_mem_cons.1 hitems
    unfold runEach
    refine .gives_bind hinv hw (applyValue_gives (hinv.provides hw) ctx _ none hfn hitem)
      fun v w1 hw1 hkind1 hv => ?_
    refine (hrun ctx hv (hkind1.trans hkind) hw1).bind fun G2 r w2 hG hkind2 hI hr => ?_
    refine (runEach_performs items (fun v hv => (hitems v hv).mono hG) (hfn.mono hG)
      (hkind2.trans (hkind1.trans hkind)) hI).bind fun G3 rs w3 hG3 _ hI3 hrs => ?_
    exact .pure hI3 (List.forall_mem_cons.2 ⟨hr.mono hG3, hrs⟩)

end

end VeriScript
