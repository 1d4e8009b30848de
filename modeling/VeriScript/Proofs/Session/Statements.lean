import VeriScript.Proofs.Run.Actions
import VeriScript.Proofs.Run.Agreement
import VeriScript.Proofs.Session.Typing
import VeriScript.Proofs.Typing.Inference

/-!
# Statements keep sessions to their schemas

* `Session.Upholds` — the condition on sessions that statements keep, with the scope that values rely on.
* `evalGroup_parts` — what a group of declarations binds.
* `nextSession_performs` — what a statement binds, whatever its kind.
-/

namespace VeriScript

open Run (Gives Performs)

/-- The session is typed in a scope that its own types cover. -/
structure Session.Upholds (s : Session) (G : Scope) : Prop where
  below : G.Below s.typeEnv.scope
  typed : s.TypedIn G

variable {s : Session} {ms : List Member} {ds : List Decl} {al : Aliases}

theorem Session.Upholds.ofTyped (h : s.Typed) : s.Upholds s.typeEnv.scope :=
  ⟨.refl _, h⟩

theorem upholds_invariant : RunInvariant anyCommand (fun _ => True) fun G s => s.Upholds G where
  provides h := h.typed.provides h.below
  frame s' h hvalues htypes haliases := by
    refine ⟨?_, h.typed.frame hvalues htypes haliases⟩
    rw [Session.typeEnv, htypes, haliases]
    exact h.below
  enable {G s} life h := by
    refine ⟨G, .refl G, fun x τ hx => ?_, h.typed.enable life⟩
    obtain ⟨schema, hschema, hτ⟩ := h.below x τ hx
    refine ⟨schema, ?_, hτ⟩
    rw [Session.typeEnv, Session.enable, get?_addMissing]
    exact Option.or_eq_some_iff.2 (.inl hschema)
  safe _ := trivial

/-! ## Groups -/

theorem check_gives {α : Type} (ctx : Context) (x : Check α) :
    Gives s (ctx.check x) fun a => ∃ st, x .initial = .ok a st := by
  refine fun w _ => (Run.check_ends ctx x w).imp (fun _ _ h => h) fun halt w' h => ?_
  obtain ⟨hprinted, e, st, rfl, -⟩ := h
  exact ⟨hprinted, ScriptError.isShape_halt _⟩

theorem MembersOf.schemas_eq {ss : List (Option Schema)} (h : MembersOf ds ss ms) : ms.map (·.schema?) = ss := by
  induction h with
  | nil => rfl
  | cons fn named rest ih => exact congrArg _ ih

theorem MembersOf.names_eq {ss : List (Option Schema)}
    (h : MembersOf ds ss ms) : ms.map (·.name) = ds.flatMap fun d => d.pattern.names := by
  induction h with
  | nil => rfl
  | cons fn named rest ih => simp [named, ih]

theorem MembersTyped.cons_inv {Γ : Scope} {m : Member} {b : String × Mono}
    {bs : Typings} (h : MembersTyped al Γ (m :: ms) (b :: bs)) :
    (∃ τ σ bs', b.2 = .fn τ σ ∧ m.param.Takes al τ bs' ∧ HasType al (Γ.bind bs') m.body σ) ∧
      MembersTyped al Γ ms bs := by
  cases h with
  | cons param body rest => exact ⟨⟨_, _, _, rfl, param, body⟩, rest⟩

theorem HasMembers.length_eq {Γ : Scope} {bs : Typings} (h : HasMembers al Γ ds bs) : bs.length = ds.length := by
  induction ds generalizing bs with
  | nil =>
    cases h
    rfl
  | cons d ds ih =>
    cases h with
    | cons named takes body rest => exact congrArg _ (ih rest)

/-- The members of a group that has many typings, one by one. -/
theorem MembersTyped.forall_mem {ι : Type} {Γ : ι → Scope} {gs : Check.Generalized} {type : ι → Ty → Mono}
    (h : ∀ i, MembersTyped al (Γ i) ms (gs.map fun g => (g.1, type i g.2.1)))
    (hschemas : ms.map (·.schema?) = gs.map fun g => some g.2.2) :
    ∀ m ∈ ms, ∃ g ∈ gs, m.schema? = some g.2.2 ∧ ∀ i, ∃ τ σ bs, type i g.2.1 = .fn τ σ ∧
      m.param.Takes al τ bs ∧ HasType al ((Γ i).bind bs) m.body σ := by
  induction ms generalizing gs with
  | nil => nofun
  | cons m ms ih =>
    cases gs with
    | nil => cases hschemas
    | cons g gs =>
      obtain ⟨hm, hschemas⟩ := List.cons.inj hschemas
      refine List.forall_mem_cons.2 ⟨⟨g, List.mem_cons_self, hm, fun i => ?_⟩, fun m' hm' => ?_⟩
      · exact (h i).cons_inv.1
      · obtain ⟨g', hg', hm'⟩ := ih (fun i => (h i).cons_inv.2) hschemas m' hm'
        exact ⟨g', List.mem_cons_of_mem _ hg', hm'⟩

theorem map_getElem?_range {α : Type} (xs : List α) {n : Nat} (hn : n = xs.length) :
    (List.range n).map (fun i => xs[i]?) = xs.map some := by
  subst hn
  refine List.ext_getElem (by simp) fun i h1 h2 => ?_
  simp at h1
  simp [h1]

theorem exists_ok_of_map {ε β γ : Type} {f : β → γ} {r : Except ε β} {c : γ} (h : r.map f = .ok c) :
    ∃ b, r = .ok b ∧ c = f b := by
  cases r with
  | error e => cases h
  | ok b => exact ⟨b, rfl, (Except.ok.inj h).symm⟩

theorem Pattern.group_names {p : Pattern} {schema? : Option Schema} {v : Value} {parts : List Part}
    (h : p.destructure schema? v = .ok parts) (span dspan : Span) (e : Expr) :
    parts.map (·.name) = (Group.single span (.mk dspan p e)).names := by
  simp [Group.names, Group.decls, Decl.pattern, p.destructure_names h]

theorem MembersOf.group_names {ss : List (Option Schema)} (h : MembersOf ds ss ms) (span : Span) :
    (memberParts ms).map (·.name) = (Group.recursive span ds).names := by
  simpa [memberParts, Group.names, Group.decls, Function.comp_def] using h.names_eq

theorem membersOf_of_ok {ss : List (Option Schema)} (h : recursiveMembers ds ss = .ok ms)
    (hss : ss.length = ds.length) : MembersOf ds ss ms := by
  have hmeets := recursiveMembers_meets hss
  rwa [h] at hmeets

theorem evalGroup_parts (hs : s.Typed) (ctx : Context) {g : Group}
    {schemas : List Schema} {bs : Bindings} {env' : TypeEnv} (hbs : Ty.Solved bs)
    (h : Check.GroupTyped s.typeEnv bs g schemas env') :
    Gives s (evalGroup ctx.call ctx [] schemas g) fun env => ∃ parts : List Part,
      s.merge env = s.bindParts parts ∧ (∀ p ∈ parts, p.Typed s.typeEnv.scope) ∧ parts.map (·.name) = g.names := by
  have hprovides := hs.provides (.refl _)
  cases h with
  | @single span dspan p e schema decl =>
    obtain ⟨hcomplete, htyped⟩ := decl.hasType hs.complete hbs
    unfold evalGroup evalDecl
    refine .bind (.all .var fun ρ => ctx.eval_gives hprovides (htyped ρ) (.nil (.refl _))) fun v hv => ?_
    -- the pattern takes the value, so there are parts
    obtain ⟨typings, htakes⟩ := decl.takes (fun _ => .unit) .var
    obtain ⟨parts, hparts, -⟩ := Pattern.destructure_typed (some schema) htakes (hv .var)
    rw [List.head?_cons, Env.bindPattern, hparts]
    refine .pure ⟨parts, Session.merge_bindParts s [] parts, p.destructure_parts hcomplete hv hparts, ?_⟩
    exact Pattern.group_names hparts span dspan e
  | @recursive span ds gs schemas typed =>
    have hlength : ds.length = (gs.map (·.2.2)).length := by
      simpa [TypeEnv.typingsUnder] using (typed _ (Ty.solves_solution hbs fun _ => .unit)).length_eq.symm
    unfold evalGroup
    rw [map_getElem?_range _ hlength]
    refine .bind (.orRuntimeError (recursiveMembers_meets (by simpa using hlength.symm))) fun ms hms => ?_
    refine .pure ⟨memberParts ms, s.merge_recursive ms, fun p hp => ?_, ?_⟩
    · obtain ⟨m, hm, rfl⟩ := List.mem_map.1 hp
      have hgroup : ∀ i : { θ // Ty.Solves θ bs }, MembersTyped s.aliases (s.typeEnv.scope.bind
          (gs.map fun g => (g.1, g.2.1.under i.1))) ms (gs.map fun g => (g.1, g.2.1.under i.1)) := by
        rintro ⟨θ, hθ⟩
        have := hms.typed (typed θ hθ)
        rwa [hs.complete.noHoles.under_eq θ fun _ => .unit, TypeEnv.typingsUnder, List.map_map] at this
      obtain ⟨g, hg, hschema, hm⟩ :=
        MembersTyped.forall_mem hgroup (by simpa [Function.comp_def] using hms.schemas_eq) m hm
      have hcomplete : g.2.2.Complete := ⟨(schemas g hg).closed, (schemas g hg).noHoles hs.complete.noHoles⟩
      refine ⟨g.2.2, hschema, hcomplete, fun ρ => ?_⟩
      -- an instance of the schema comes from one typing of the whole group
      obtain ⟨θ, hθ, hinstance, -⟩ := (schemas g hg).instances (fun _ => .unit) ρ
      obtain ⟨τ, σ, typings, hfn, hparam, hbody⟩ := hm ⟨θ, hθ⟩
      rw [Schema.at, hinstance, hfn]
      exact .closure (.recursive hgroup (.nil (.refl _)) (Scope.bind_below_bindAny _ _ ⟨θ, hθ⟩)) hparam hbody
    · exact hms.group_names span

/-! ## Statements -/

/-- The names that a statement at the top level binds. -/
def Stmt.names : Stmt → List String
  | .bind _ p _ => p.names
  | .define _ g => g.names
  | .code _ _ | .typedef _ _ _ | .importTerms _ _ _ => []

/-- A session that a statement may lead to, in a scope that its values rely on. -/
structure Session.Binds (names : List String) (G : Scope) (s : Session) : Prop where
  typed : s.TypedIn G
  bound : ∀ x ∈ names, (Table.get? s.values x).isSome

abbrev StmtPerforms (G : Scope) (x : Run Session) (w : World) (names : List String) : Prop :=
  Performs (fun _ => True) (fun G s => s.Upholds G) G x w (Session.Binds names)

variable {run : RunAction} {w : World}

theorem Pattern.AllTypes.declaredType {P : Ty → Prop} : ∀ {p : Pattern}, p.AllTypes P → ∀ t ∈ p.declaredType, P t
  | .wildcard _ _, h => h
  | .var _ _ _, h => h
  | .tuple _ _ _, h => h.1
  | .paren _ inner none, h => AllTypes.declaredType (p := inner) h.2
  | .paren _ _ (some _), h => h.1

theorem Pattern.AllTypes.annotate {p : Pattern} (hp : p.AllTypes Ty.Ground) (span : Span) {e : Expr}
    (he : e.AllTypes Ty.Ground) : (p.annotate span e).AllTypes Ty.Ground := by
  unfold Pattern.annotate
  split
  · rename_i t ht
    refine ⟨?_, he⟩
    refine Ty.ground_con.2 (List.forall_mem_cons.2 ⟨Ty.ground_con.2 (List.forall_mem_nil _), ?_⟩)
    exact List.forall_mem_singleton.2 (hp.declaredType t ht)
  · exact he

theorem Schema.Complete.at_eq {t : Ty} (h : (Schema.mono t).Complete) (ρ ρ' : String → Mono) :
    (Schema.mono t).at ρ = (Schema.mono t).at ρ' :=
  Ty.denote_congr (fun _ _ => rfl) fun x hx => absurd (h.closed x hx) List.not_mem_nil

/-- A result and its type. -/
def ResultTyped (G : Scope) (r : Value × Ty) : Prop :=
  (Schema.mono r.2).Complete ∧ ∀ ρ, HasTy anyCommand G r.1 ((Schema.mono r.2).at ρ)

/-- A value of a block type has both parameters in its type. -/
theorem HasTy.block_args {allowed : Command → Prop} {G : Scope} {v : Value} {args : List Mono}
    (h : HasTy allowed G v (.con "Block" args)) : ∃ c τ, args = [c, τ] := by
  generalize hτ : Mono.con "Block" args = μ at h
  cases h with
  | block _ _ | yield _ | forEach _ _ | command _ _ _ => exact ⟨_, _, (Mono.con.inj hτ).2⟩
  | _ => simp [Mono.fns] at hτ

theorem printResult_gives (ctx : Context) (printBinds : Bool) (p : Pattern) (r : Value) (t : Ty) :
    Gives s (printResult ctx printBinds p r t) fun _ => True := by
  unfold printResult
  dsimp only
  split
  · refine .bind .session fun _ _ => .bind (.write _) fun _ _ => .bind (.print _ _ _) fun _ _ => ?_
    split
    · exact .printText _ _ _ _
    · exact .pure trivial
  · split
    · exact .printText _ _ _ _
    · exact .pure trivial

/-- Terms are no names of the session. -/
theorem importTerms_performs (span : Span) (file : String) (qualifier : Option String)
    (hs : s.Typed) (hw : w.session = s) : StmtPerforms s.typeEnv.scope (importTerms span file qualifier) w [] := by
  subst hw
  have hstart := Session.Upholds.ofTyped hs
  unfold StmtPerforms Performs importTerms
  rw [Run.ends_bind, Run.ends_get]
  dsimp only
  split
  · cases parseTermDecls w.session.terms qualifier _ with
    | ok terms => exact ⟨rfl, _, .refl _, hstart, hs.frame rfl rfl rfl, nofun⟩
    | error fault => exact ⟨rfl, ⟨_, .refl _, hstart⟩, trivial⟩
  · exact ⟨rfl, ⟨_, .refl _, hstart⟩, trivial⟩
  · exact ⟨rfl, ⟨_, .refl _, hstart⟩, trivial⟩
  · exact ⟨rfl, ⟨_, .refl _, hstart⟩, trivial⟩

variable (hrun : RunTyped anyCommand (fun _ => True) (fun G s => s.Upholds G) run) (ctx : Context)

include hrun

theorem topLevelResult_performs {G : Scope} {t : Ty} {v : Value} (hv : ResultTyped G (v, t))
    (hkind : w.work.kind = .topLevel) (hw : w.session.Upholds G) :
    Performs (fun _ => True) (fun G s => s.Upholds G) G (topLevelResult run ctx t v) w ResultTyped := by
  obtain ⟨hs, hv⟩ := hv
  unfold topLevelResult
  split
  · exact .throw hw trivial
  · rename_i args rest
    obtain ⟨c, τ, hargs⟩ : ∃ c τ, (Ty.con "TopLevel" args :: rest).map (Ty.denote (fun _ => .unit) .var) = [c, τ] := by
      have hblock := hv .var
      simp only [Schema.at, Schema.mono, Ty.denote, Ty.denoteList_eq] at hblock
      exact hblock.block_args
    obtain ⟨t, rfl, -⟩ := List.map_eq_singleton_iff.1 (List.cons.inj hargs).2
    have hresult : (Schema.mono t).Complete :=
      ⟨fun x hx => hs.closed x (Ty.mem_varNames_con.2 ⟨t, by simp, hx⟩),
        fun i hi => hs.noHoles i (Ty.mem_holes_con.2 ⟨t, by simp, hi⟩)⟩
    have hblock : HasTy anyCommand G v (.block (.con ContextKind.topLevel.name
        (args.map (Ty.denote (fun _ => .unit) .var))) ((Schema.mono t).at .var)) := by
      simpa [Schema.at, Schema.mono, Ty.denote, ContextKind.name] using hv .var
    refine .bind (hrun ctx hblock hkind hw) fun G' r w' _ _ hw' hr => ?_
    refine .pure hw' ⟨hresult, fun ρ => ?_⟩
    rw [hresult.at_eq ρ .var]
    exact hr
  · exact .pure hw ⟨hs, hv⟩

theorem bindResult_performs (printBinds : Bool) (span : Span) {p : Pattern} {e : Expr} (hp : p.AllTypes Ty.Ground)
    (he : e.AllTypes Ty.Ground) (hs : s.Typed) (hw : w.session = s) (hkind : w.work.kind = .topLevel) :
    StmtPerforms s.typeEnv.scope (bindResult run ctx printBinds span p e) w p.names := by
  have hdecl : (Decl.mk span (.wildcard span none) (p.annotate span e)).AllTypes Ty.Ground := by
    simpa [Decl.AllTypes, Pattern.AllTypes] using hp.annotate span he
  have hstart := Session.Upholds.ofTyped hs
  unfold bindResult
  dsimp only
  refine .session_bind hw (.gives_bind_in upholds_invariant hw hstart (check_gives ctx _) ?_)
  rintro schema w1 hw1 hkind1 ⟨st, hcheck⟩
  obtain ⟨hcomplete, htyped⟩ := checkDecl_sound hs.complete hdecl hcheck
  split
  · exact .bind (.throw (Q := fun _ _ => False) (hw1 ▸ hstart) trivial) fun _ _ _ _ _ _ h => h.elim
  · rename_i hmono
    obtain ⟨vars, t⟩ := schema
    obtain rfl : vars = [] := by simpa using hmono
    refine .gives_bind_in upholds_invariant hw1 hstart
      (.all .var fun ρ => ctx.eval_gives (hs.provides (.refl _)) (htyped ρ) (.nil (.refl _)))
      fun value w2 hw2 hkind2 hvalue => ?_
    have htop : w2.work.kind = .topLevel := hkind2.trans (hkind1.trans hkind)
    refine .bind (topLevelResult_performs hrun ctx ⟨hcomplete, hvalue⟩ htop (hw2 ▸ hstart)) ?_
    rintro G ⟨result, u⟩ w3 - - hw3 ⟨hu, hresult⟩
    refine .gives_bind_in upholds_invariant rfl hw3 (printResult_gives _ _ _ _ _) fun _ w4 hw4 _ _ => ?_
    refine .session_bind hw4 ?_
    unfold Session.bindPattern
    cases hparts : p.destructure (some (.mono u)) result with
    | error fault => exact .throw (hw4 ▸ hw3) trivial
    | ok parts =>
      refine .pure (hw4 ▸ hw3) ⟨hw3.typed.bindParts (p.destructure_parts hu hresult hparts), fun x hx => ?_⟩
      exact Session.isSome_bindParts (.inr (p.destructure_names hparts ▸ hx))

/-- What a statement binds, whatever its kind, has all the instances of the schema it gets. -/
theorem stmtSession_performs (printBinds : Bool) {stmt : Stmt} (hstmt : stmt.AllTypes Ty.Ground)
    (hs : s.Typed) (hw : w.session = s) (hkind : w.work.kind = .topLevel) :
    StmtPerforms s.typeEnv.scope (stmtSession run ctx printBinds stmt) w stmt.names := by
  have hstart := Session.Upholds.ofTyped hs
  cases stmt with
  | bind span p e => exact bindResult_performs hrun ctx printBinds span hstmt.1 hstmt.2 hs hw hkind
  | define span g =>
    unfold stmtSession
    refine .session_bind hw ?_
    refine .gives_bind_in upholds_invariant hw hstart (check_gives ctx _) fun schemas w1 hw1 _ ⟨st, hcheck⟩ => ?_
    obtain ⟨bs, env', hbs, hgroup⟩ := checkGroup_sound hs.complete hstmt hcheck
    refine .gives_bind_in upholds_invariant hw1 hstart (evalGroup_parts hs ctx hbs hgroup)
      fun env w2 hw2 _ ⟨parts, hmerge, hparts, hnames⟩ => ?_
    refine .session_bind hw2 (.pure (hw2 ▸ hstart) ?_)
    rw [hmerge]
    exact ⟨hs.bindParts hparts, fun x hx => Session.isSome_bindParts (.inr (hnames ▸ hx))⟩
  | code span text =>
    unfold stmtSession
    refine .session_bind hw ?_
    refine .gives_bind_in upholds_invariant hw hstart (.orTermError (Q := fun _ => True) fun _ => trivial)
      fun terms w1 hw1 _ _ => ?_
    exact .pure (hw1 ▸ hstart) ⟨hs.frame rfl rfl rfl, nofun⟩
  | importTerms span file qualifier => exact importTerms_performs span file qualifier hs hw
  | typedef span name t =>
    unfold stmtSession
    refine .session_bind hw ?_
    split
    · rename_i u hu
      exact .pure (hw ▸ hstart) ⟨hs.addAlias (Check.resolve_ground hs.complete.aliases hstmt hu), nofun⟩
    · exact .throw (hw ▸ hstart) trivial

theorem nextSession_performs (printBinds : Bool) {stmt : Stmt} (hstmt : stmt.AllTypes Ty.Ground)
    (hs : s.Typed) (hw : w.session = s) (hkind : w.work.kind = .topLevel) :
    StmtPerforms s.typeEnv.scope (nextSession run ctx printBinds stmt) w stmt.names := by
  refine .gives_bind_in upholds_invariant hw (.ofTyped hs) (.trace ctx _) fun _ w' hw' hkind' _ => ?_
  exact stmtSession_performs hrun ctx printBinds hstmt hs hw' (hkind'.trans hkind)

end VeriScript
