import VeriScript.Proofs.Typing.Judgement

/-!
# Inference follows the typing rules

* `inferExpr_sound`, `inferGroup_sound` — whatever inference finds is derivable, under every solution of the
  bindings it ends with.
* `checkExpr_sound`, `checkDecl_sound`, `checkGroup_sound` — every instance of a schema that is found is a type
  of what was checked.
-/

namespace VeriScript

open Ty (NoVars Solves Solved under Ground)
open TypeEnv (typingsUnder)

namespace Check

variable {st : CheckState} {env : TypeEnv}

/-! ## Declarations -/

/-- What a schema for a declaration promises, under the bindings made so far. -/
structure DeclTyped (env : TypeEnv) (bs : Bindings) (p : Pattern) (e : Expr) (s : Schema) : Prop where
  closed : ∀ x ∈ s.type.varNames, x ∈ s.vars
  noHoles : env.NoHoles → s.type.NoHoles
  takes : ∀ θ ρ, ∃ typings, p.Takes env.aliases (s.type.denote θ ρ) typings
  typed : ∀ θ, Solves θ bs → ∀ ρ, HasType env.aliases (env.under θ) e (s.type.denote θ ρ)

variable {θ : Nat → Mono} {al : Aliases} {Γ : Scope}

theorem DeclTyped.declares {bs : Bindings} {p : Pattern} {e : Expr} {s : Schema} (h : DeclTyped env bs p e s)
    (hθ : Solves θ bs) (span dspan : Span) :
    Declares env.aliases (env.under θ) (.single span (.mk dspan p e)) ((bindPattern env p s).under θ) := by
  obtain ⟨parts, hparts, hbs⟩ := distribute_parts p s h.takes
  refine .single (⟨.var⟩ : Nonempty (String → Mono)) (h.typed θ hθ) (fun ρ => ?_)
    (under_bindPattern_below hparts θ)
  obtain ⟨typings, htakes⟩ := h.takes θ ρ
  exact hbs θ ρ typings htakes ▸ htakes

theorem defaultContext_yields {t : Ty} {span : Span} (hst : Solved st.bindings) :
    Yields (defaultContext t span) st fun _ st' => st.Reached st' := by
  unfold defaultContext
  rw [yields_bind, yields_zonk]
  split
  · trivial
  · refine (unify_yields hst ?_ ?_).imp fun _ _ h => h.1
    · exact noVars_con.2 (List.forall_mem_nil _)
    · exact fun _ => Ty.mem_varNames_hole
  · exact .refl hst

/-! ## Recursive groups -/

/-- The members of a group with the types they were inferred at and the schemas they were given. -/
abbrev Generalized := List (String × Ty × Schema)

theorem get?_typingsUnder (θ : Nat → Mono) (members : Generalized) (x : String) :
    Table.get? (typingsUnder θ (members.map fun m => (m.1, m.2.1))).reverse x =
      (Table.get? members.reverse x).map fun m => m.1.under θ := by
  rw [typingsUnder, List.map_map, ← List.map_reverse, ← Table.get?_map]
  rfl

/-- Behind a recursive group, names have the types that the group has under any solution. -/
theorem under_members_below {bs : Bindings} {members : Generalized}
    (h : ∀ m ∈ members, Generalizes env bs m.2.1 m.2.2) (hθ : Solves θ bs) :
    ((env.bindAll (members.map fun m => (m.1, m.2.2))).under θ).Below
      ((env.under θ).bindAny fun i : { θ' // Solves θ' bs ∧ env.under θ' = env.under θ } =>
        typingsUnder i.1 (members.map fun m => (m.1, m.2.1))) := by
  rintro x τ ⟨s, hs, ρ, rfl⟩
  rw [TypeEnv.get?_bindAll, ← List.map_reverse, Table.get?_map (fun m : Ty × Schema => m.2)] at hs
  unfold Scope.bindAny Scope.bind
  simp only [get?_typingsUnder]
  cases hget : Table.get? members.reverse x with
  | none =>
    rw [hget, Option.map_none, Option.none_or] at hs
    exact ⟨⟨θ, hθ, rfl⟩, s, hs, ρ, rfl⟩
  | some m =>
    rw [hget] at hs
    cases hs
    obtain ⟨θ', hθ', heq, hsame⟩ := (h (x, m) (List.mem_reverse.1 (Table.mem_of_get? hget))).instances θ ρ
    exact ⟨⟨θ', hθ', hsame hθ⟩, heq⟩

/-- What the schemas of a group promise, and the environment behind it. -/
inductive GroupTyped (env : TypeEnv) (bs : Bindings) : Group → List Schema → TypeEnv → Prop
  | single {span dspan p e s} (decl : DeclTyped env bs p e s) :
    GroupTyped env bs (.single span (.mk dspan p e)) [s] (bindPattern env p s)
  | recursive {span ds} {members : Generalized} (schemas : ∀ m ∈ members, Generalizes env bs m.2.1 m.2.2)
      (typed : ∀ θ, Solves θ bs → HasMembers env.aliases
        ((env.under θ).bind (typingsUnder θ (members.map fun m => (m.1, m.2.1)))) ds
        (typingsUnder θ (members.map fun m => (m.1, m.2.1)))) :
    GroupTyped env bs (.recursive span ds) (members.map (·.2.2))
      (env.bindAll (members.map fun m => (m.1, m.2.2)))

namespace GroupTyped

variable {bs : Bindings} {g : Group} {ss : List Schema} {env' : TypeEnv}

theorem declares (h : GroupTyped env bs g ss env') {θ : Nat → Mono} (hθ : Solves θ bs) :
    Declares env.aliases (env.under θ) g (env'.under θ) := by
  cases h with
  | single decl => exact decl.declares hθ _ _
  | recursive schemas typed =>
    refine .recursive (⟨θ, hθ, rfl⟩ : Nonempty { θ' // Solves θ' bs ∧ env.under θ' = env.under θ }) ?_
      (under_members_below schemas hθ)
    rintro ⟨θ', hθ', hsame⟩
    have h := typed θ' hθ'
    rw [hsame] at h
    exact h

end GroupTyped

/-! ## Expressions -/

theorem hasTypes_of_forall₂ {es : List Expr} {τs : List Mono}
    (h : List.Forall₂ (HasType al Γ) es τs) : HasTypes al Γ es τs := by
  induction h with
  | nil => exact .nil
  | cons head _ ih => exact .cons head ih

theorem hasFields_of_forall₂ {fields : List (String × Expr)} {bs : Typings}
    (h : List.Forall₂ (fun f b => f.1 = b.1 ∧ HasType al Γ f.2 b.2) fields bs) : HasFields al Γ fields bs := by
  induction h with
  | nil => exact .nil
  | @cons f b _ _ head _ ih =>
    obtain ⟨name, e⟩ := f
    obtain ⟨_, τ⟩ := b
    obtain ⟨rfl, htyped⟩ := head
    exact .cons htyped ih

theorem hasMembers_of_forall₂ {ds : List Decl}
    {binds : List (String × Ty)} (htakes : MembersTake al ds (typingsUnder θ binds))
    (h : List.Forall₂ (fun d b => HasType al Γ d.body (b.2.under θ)) ds binds) :
    HasMembers al Γ ds (typingsUnder θ binds) := by
  induction h with
  | nil => exact .nil
  | @cons d b _ _ head _ ih =>
    obtain ⟨span, p, e⟩ := d
    obtain ⟨hname, ⟨_, hp⟩, hrest⟩ := htakes
    exact .cons hname hp head (ih hrest)

/-- A declaration that has the types it is generalised from has all instances of its schema. -/
theorem declTyped_schemaOf {p : Pattern} {e : Expr} {t : Ty} (hst : Solved st.bindings) (ht : t.NoVars)
    (htakes : ∀ θ, Solves θ st.bindings → ∃ typings, p.Takes env.aliases (t.under θ) typings)
    (htyped : ∀ θ, Solves θ st.bindings → HasType env.aliases (env.under θ) e (t.under θ)) :
    DeclTyped env st.bindings p e (schemaOf env st.bindings t) := by
  have hs : Generalizes env st.bindings t (schemaOf env st.bindings t) := generalizes_schemaOf hst ht
  refine ⟨hs.closed, hs.noHoles, takes_schemaOf hst ht htakes, fun θ hθ ρ => ?_⟩
  obtain ⟨θ', hθ', heq, hsame⟩ := hs.instances θ ρ
  rw [heq, ← hsame hθ]
  exact htyped θ' hθ'

theorem GroupFound.groupTyped {g : Group} {ss : List Schema} {env' : TypeEnv} (hst : Solved st.bindings)
    (h : GroupFound (fun env θ => HasType env.aliases (env.under θ)) env st.bindings g ss env') :
    GroupTyped env st.bindings g ss env' := by
  cases h with
  | single noVars takes typed => exact .single (declTyped_schemaOf hst noVars takes typed)
  | @recursive span ds binds noVars takes typed =>
    have hschemas : ∀ m ∈ binds.map (fun b => (b.1, b.2, schemaOf env st.bindings b.2)),
        Generalizes env st.bindings m.2.1 m.2.2 :=
      List.forall_mem_map.2 fun b hb => generalizes_schemaOf hst (noVars b hb)
    have hsame : (binds.map fun b => (b.1, b.2, schemaOf env st.bindings b.2)).map
        (fun m => (m.1, m.2.1)) = binds := by
      simp [Function.comp_def]
    have hgroup := @GroupTyped.recursive env st.bindings span ds _ hschemas fun θ hθ => by
      have hbodies := typed θ hθ
      rw [aliases_bindMono, TypeEnv.under_bindMono noVars] at hbodies
      rw [hsame]
      exact hasMembers_of_forall₂ (takes θ hθ) hbodies
    simp only [List.map_map] at hgroup
    exact hgroup

/-- The typing rules, in the scope that an environment stands for. -/
def hasType : Judgement where
  Types env θ := HasType env.aliases (env.under θ)
  Runs env θ := HasBody env.aliases (env.under θ)
  bool := .bool
  int := .int
  string := .string
  code := .code
  termType := .termType
  array := .array
  tuple elems := .tuple (hasTypes_of_forall₂ elems)
  record distinct typed := .record distinct (hasFields_of_forall₂ typed)
  index := .index
  field := .field
  proj := .proj
  var hs ρ := .var ⟨_, hs, ρ, rfl⟩
  lam hbinds param body := .lam param (aliases_bindMono _ _ ▸ TypeEnv.under_bindMono hbinds ▸ body)
  app := .app
  letIn hst hg hθ body := .letIn ((hg.groupTyped hst).declares hθ) (hg.aliases_eq ▸ body)
  typed := .typed
  ite := .ite
  block := .block
  paren := .paren
  last := .last
  bind hbinds action result next :=
    .bind action result (aliases_bindMono _ _ ▸ TypeEnv.under_bindMono hbinds ▸ next)
  define hst hg hθ next := .define ((hg.groupTyped hst).declares hθ) (hg.aliases_eq ▸ next)
  typedef := .typedef
  codeStmt := .code
  importTerms := .importTerms

theorem inferExpr_sound (e : Expr) (henv : env.Closed) (he : e.AllTypes Ground) (hst : Solved st.bindings) :
    Yields (inferExpr env e) st fun t st' =>
      st.Reached st' ∧ t.NoVars ∧ ∀ θ, Solves θ st'.bindings → HasType env.aliases (env.under θ) e (t.under θ) :=
  inferExpr_reads hasType e henv he hst

theorem inferDecl_sound (d : Decl) (henv : env.Closed) (hd : d.AllTypes Ground) (topLevel : Bool)
    (hst : Solved st.bindings) : Yields (inferDecl env topLevel d) st fun s st' =>
      st.Reached st' ∧ DeclTyped env st'.bindings d.pattern d.body s := by
  rw [inferDecl_eq, yields_bind]
  refine Yields.imp (inferBound_reads hasType d henv hd hst) fun t st1 ⟨hr1, ht, hfound⟩ => ?_
  have hgeneralize : ∀ st2, st1.Reached st2 → Yields (generalize env t) st2 fun s st' =>
      st.Reached st' ∧ DeclTyped env st'.bindings d.pattern d.body s := fun st2 hr2 => yields_generalize.2
    ⟨hr1.trans hr2, declTyped_schemaOf hr2.solved ht (fun θ hθ => (hfound θ (hr2.solves hθ)).2)
      fun θ hθ => (hfound θ (hr2.solves hθ)).1⟩
  dsimp only
  split
  · rw [yields_bind]
    exact (defaultContext_yields hr1.solved).imp fun _ st2 hr2 => hgeneralize st2 hr2
  · exact hgeneralize st1 (.refl hr1.solved)

theorem inferGroup_sound (g : Group) (henv : env.Closed) (hg : g.AllTypes Ground) (hst : Solved st.bindings) :
    Yields (inferGroup env g) st fun r st' => st.Reached st' ∧ GroupTyped env st'.bindings g r.1 r.2 :=
  (inferGroup_reads hasType g henv hg hst).imp fun _ _ ⟨hr, hfound⟩ => ⟨hr, hfound.groupTyped hr.solved⟩

end Check

/-! ## Checks with a state of their own -/

variable {env : TypeEnv} {st : CheckState}

theorem solved_initial : Solved CheckState.initial.bindings := trivial

/-- An environment without holes stands for the same scope under any solution. -/
theorem TypeEnv.Complete.under_solution (henv : env.Complete) (bs : Bindings) (θ : Nat → Mono) :
    env.under (Ty.solution bs θ) = env.scope :=
  henv.noHoles.under_eq _ _

variable {s : Schema}

/-- Every instance of the schema of a declaration is a type of its body. -/
theorem Check.DeclTyped.hasType {bs : Bindings} {p : Pattern} {e : Expr} (henv : env.Complete)
    (hbs : Solved bs) (h : DeclTyped env bs p e s) : s.Complete ∧ ∀ ρ, HasType env.aliases env.scope e (s.at ρ) := by
  have hs : s.Complete := ⟨h.closed, h.noHoles henv.noHoles⟩
  refine ⟨hs, fun ρ => ?_⟩
  have htyped := h.typed _ (Ty.solves_solution hbs fun _ => .unit) ρ
  rwa [henv.under_solution, hs.denote_eq] at htyped

theorem checkExpr_sound {e : Expr} (henv : env.Complete) (he : e.AllTypes Ground)
    (h : checkExpr env e .initial = .ok s st) : s.Complete ∧ ∀ ρ, HasType env.aliases env.scope e (s.at ρ) := by
  have hyields : Check.Yields (checkExpr env e) .initial fun s _ =>
      s.Complete ∧ ∀ ρ, HasType env.aliases env.scope e (s.at ρ) := by
    unfold checkExpr
    rw [Check.yields_bind]
    refine (Check.inferExpr_sound e henv.closed he solved_initial).imp fun t st1 ⟨hr, ht, htyped⟩ => ?_
    refine (Check.generalize_yields hr.solved ht).imp ?_
    rintro s _ ⟨rfl, hclosed, hnoHoles, hinst⟩
    refine ⟨⟨hclosed, hnoHoles henv.noHoles⟩, fun ρ => ?_⟩
    obtain ⟨θ', hθ', hs, -⟩ := hinst (fun _ => .unit) ρ
    rw [Schema.at, hs, TypeEnv.scope, henv.noHoles.under_eq _ θ']
    exact htyped θ' hθ'
  exact hyields.of_ok h

theorem checkDecl_sound {topLevel : Bool} {d : Decl} (henv : env.Complete) (hd : d.AllTypes Ground)
    (h : checkDecl env topLevel d .initial = .ok s st) :
    s.Complete ∧ ∀ ρ, HasType env.aliases env.scope d.body (s.at ρ) := by
  obtain ⟨hr, hs⟩ := (Check.inferDecl_sound d henv.closed hd topLevel solved_initial).of_ok h
  exact hs.hasType henv hr.solved

theorem checkGroup_sound {g : Group} {ss : List Schema} (henv : env.Complete) (hg : g.AllTypes Ground)
    (h : checkGroup env g .initial = .ok ss st) :
    ∃ bs env', Solved bs ∧ Check.GroupTyped env bs g ss env' := by
  have hyields : Check.Yields (checkGroup env g) .initial fun ss _ =>
      ∃ bs env', Solved bs ∧ Check.GroupTyped env bs g ss env' := by
    unfold checkGroup
    rw [Check.yields_bind]
    refine (Check.inferGroup_sound g henv.closed hg solved_initial).imp fun r st1 ⟨hr, hgroup⟩ => ?_
    exact ⟨_, _, hr.solved, hgroup⟩
  exact hyields.of_ok h

end VeriScript
