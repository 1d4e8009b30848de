import VeriScript.Proofs.Run.Commands
import VeriScript.Proofs.Session.Primitives
import VeriScript.Proofs.Typing.Inference

/-!
# Checked expressions are safe

* `initial_provides` — in the initial session, every name but `include` has a value of its types.
* `checkExpr_safe` — evaluating an expression that the checker accepts, and running the block it gives, never
  fails for the kind of a value.
-/

namespace VeriScript

open Run (Ends Performs)

/-! ## The initial session -/

def noFiles (c : Command) : Prop := c ≠ .includeFile

theorem initial_provides (options : Options) :
    (Session.initial options).Provides noFiles ((Session.initial options).typeEnv.scope.only (· ≠ "include")) := by
  rintro x τ ⟨hx, s, hs, ρ, rfl⟩
  simp only [Session.initial, Session.typeEnv, primitiveTypes, get?_entries, Option.map_eq_some_iff] at hs
  obtain ⟨e, he, rfl⟩ := hs
  obtain ⟨hmem, hname⟩ := mem_primitives_of_find? he
  refine ⟨e.value, ?_, primitives_typed _ _ e hmem (fun c hc => ?_) ρ⟩
  · simp only [Session.initial, get?_entries, he, Option.map_some]
  · rintro rfl
    exact hx (hname.symm.trans hc)

/-! ## Runs -/

/-- Actions leave the values of the names of a scope in place. -/
theorem provides_invariant (allowed : Command → Prop) :
    RunInvariant allowed (·.isShape = false) fun G s => s.Provides allowed G where
  provides h := h
  frame s' h hvalues _ _ := by
    unfold Session.Provides
    rwa [hvalues]
  enable life h := by
    refine ⟨_, .refl _, fun x τ hx => ?_⟩
    obtain ⟨v, hv, htyped⟩ := h x τ hx
    exact ⟨v, by rw [Session.enable, get?_addMissing, hv, Option.some_or], htyped⟩
  safe h := h

/-- The schema of a block that runs at the top level, or in any context. -/
def Schema.RunsAtTopLevel (s : Schema) : Prop :=
  ∃ c t, s.type = .block c t ∧ (c = .context .topLevel ∨ ∃ x ∈ s.vars, c = .var x)

/-- A block that runs at the top level has an instance that does. -/
theorem Schema.RunsAtTopLevel.at_eq {s : Schema} (h : s.RunsAtTopLevel) :
    ∃ ρ τ, s.at ρ = .block (.context .topLevel) τ := by
  obtain ⟨c, t, htype, rfl | ⟨x, -, rfl⟩⟩ := h
  · exact ⟨.var, _, by rw [Schema.at, htype]; rfl⟩
  · exact ⟨fun _ => .context .topLevel, _, by rw [Schema.at, htype]; rfl⟩

/-- Evaluating an expression that the checker accepts in the initial session, and running the block it gives at
the top level, never fails for the kind of a value: names have values, functions are called, conditions are
tested, parts are there, actions run where they belong and primitives get the arguments they want. -/
theorem checkExpr_safe (options : Options) {e : Expr} {s : Schema} {st : CheckState} (htypes : e.AllTypes Ty.Ground)
    (hinclude : ¬ e.Uses "include") (hcheck : checkExpr (Session.initial options).typeEnv e .initial = .ok s st)
    (ctx : Context) {w : World} (hw : w.session = Session.initial options) :
    (∀ halt w', ctx.eval [] e w = .error halt w' → halt.isShape = false) ∧
      ∀ v w', ctx.eval [] e w = .ok v w' → s.RunsAtTopLevel → w.work = .topLevel →
        ∀ halt w'', perform ctx v w' = .error halt w'' → halt.isShape = false := by
  obtain ⟨-, htyped⟩ := checkExpr_sound (initial_complete options) htypes hcheck
  have hprovides := initial_provides options
  -- `include` is not used, so it does not matter that its value is not typed
  have hwithout : ∀ ρ, HasType [] ((Session.initial options).typeEnv.scope.only (· ≠ "include")) e (s.at ρ) :=
    fun ρ => (htyped ρ).weaken fun x hx τ hτ => ⟨fun h => hinclude (h ▸ hx), hτ⟩
  have heval := fun ρ => ctx.eval_gives hprovides (hwithout ρ) (.nil (.refl _)) w hw
  refine ⟨fun halt w' h => ((heval .var).of_error h).2, fun v w' hv hblock hwork halt w'' hrun => ?_⟩
  obtain ⟨ρ, τ, hat⟩ := hblock.at_eq
  obtain ⟨hprinted, hvalue⟩ := (heval ρ).of_ok hv
  rw [hat] at hvalue
  have hperform : RunTyped noFiles (·.isShape = false) (fun G s => s.Provides noFiles G)
      (runAction ctx.host.actions) := by
    rw [runAction_eq]
    exact runActionWith_performs (provides_invariant noFiles) (fun h => absurd rfl h) _
  have hkind : w'.work.kind = .topLevel := by rw [hprinted.work_eq, hwork]; rfl
  exact (Ends.of_error (hperform ctx hvalue hkind (hprinted.session_eq.trans hw ▸ hprovides)) hrun).2.2

/-- A script that uses a name at two types: `let pair x = (x, x) in do { n <- return (pair 1); print (pair "a").1; }` -/
def pairScript : Expr :=
  let pos := Span.point "" 1 1
  .letIn pos (.single pos (.mk pos (.var pos "pair" none)
      (.lam pos (.var pos "x" none) (.tuple pos [.var pos "x", .var pos "x"]))))
    (.block pos
      [.bind pos (.var pos "n" none)
        (.app pos (.var pos "return") (.app pos (.var pos "pair") (.int pos 1))),
      .bind pos (.wildcard pos none)
        (.app pos (.var pos "print") (.proj pos (.app pos (.var pos "pair") (.string pos "a")) 1))])

/-- The schema is one of a block that runs at the top level only. -/
def Schema.isTopLevelBlock : Schema → Bool
  | ⟨_, .con "Block" [.con "TopLevel" [], _]⟩ => true
  | _ => false

theorem Schema.runsAtTopLevel_of_isTopLevelBlock {s : Schema} (h : s.isTopLevelBlock = true) : s.RunsAtTopLevel := by
  unfold isTopLevelBlock at h
  split at h
  · exact ⟨_, _, rfl, .inl rfl⟩
  · cases h

theorem pairScript_safe :
    ∃ s st v w', checkExpr (Session.initial .standard).typeEnv pairScript .initial = .ok s st ∧ s.RunsAtTopLevel ∧
      Context.eval .standard [] pairScript .blank = .ok v w' ∧
        ∀ halt w'', perform .standard v w' = .error halt w'' → halt.isShape = false := by
  have hpasses : Run.passes (fun s _ => s.isTopLevelBlock)
      (checkExpr (Session.initial .standard).typeEnv pairScript .initial) = true := by decide +kernel
  obtain ⟨s, st, hcheck, htest⟩ := Run.exists_ok_of_passes hpasses
  have hblock := Schema.runsAtTopLevel_of_isTopLevelBlock htest
  have hvalue : Run.passes (fun _ _ => true) (Context.eval .standard [] pairScript
      .blank) = true := by decide +kernel
  obtain ⟨v, w', hv, -⟩ := Run.exists_ok_of_passes hvalue
  refine ⟨s, st, v, w', hcheck, hblock, hv, ?_⟩
  refine (checkExpr_safe .standard ?_ ?_ hcheck .standard rfl).2 v w' hv hblock rfl
  · simp [pairScript, Expr.AllTypes, Expr.AllTypesList, Group.AllTypes, Decl.AllTypes, Pattern.AllTypes,
      Stmt.AllTypes, Stmt.AllTypesList]
  · simp [pairScript, Expr.Uses, Expr.UsesList, Group.Uses, Decl.Uses, Stmt.UsesList]

end VeriScript
