import Mathlib.Data.List.Forall2
import VeriScript.Proofs.Typing.Groups

/-!
# What inference finds, in any judgement

Inference reads an expression once and meets the premises of a typing rule for every form, under each solution of
the bindings it ends with.  What follows from that depends on the rules only.

* `Judgement` — predicates of expressions and blocks, in an environment with monotypes for its holes, that are closed
  under the typing rules.
* `GroupFound` — what is known of the declarations of a group when they are generalised.
* `Learns` — what a step of inference gives, and what holds of it under every solution; one rule for each step.
* `inferExpr_reads`, `inferGroup_reads` — what is found holds in every judgement.
-/

namespace VeriScript

open Ty (NoVars Solves Solved under Ground)
open TypeEnv (typingsUnder)

namespace Check

variable {st : CheckState} {env : TypeEnv}

/-- The declarations of a group with the schemas that they are given, and the environment behind them.  Their bodies
have the types that are generalised, under every solution. -/
inductive GroupFound (T : TypeEnv → (Nat → Mono) → Expr → Mono → Prop) (env : TypeEnv) (bs : Bindings) :
    Group → List Schema → TypeEnv → Prop
  | single {span dspan p e t} (noVars : t.NoVars)
      (takes : ∀ θ, Solves θ bs → ∃ typings, p.Takes env.aliases (t.under θ) typings)
      (typed : ∀ θ, Solves θ bs → T env θ e (t.under θ)) :
    GroupFound T env bs (.single span (.mk dspan p e)) [schemaOf env bs t] (bindPattern env p (schemaOf env bs t))
  | recursive {span ds} {binds : List (String × Ty)} (noVars : ∀ b ∈ binds, b.2.NoVars)
      (takes : ∀ θ, Solves θ bs → MembersTake env.aliases ds (typingsUnder θ binds))
      (typed : ∀ θ, Solves θ bs → List.Forall₂ (fun d b => T (bindMono env binds) θ d.body (b.2.under θ)) ds binds) :
    GroupFound T env bs (.recursive span ds) (binds.map fun b => schemaOf env bs b.2)
      (env.bindAll (binds.map fun b => (b.1, schemaOf env bs b.2)))

namespace GroupFound

variable {T : TypeEnv → (Nat → Mono) → Expr → Mono → Prop} {g : Group} {ss : List Schema} {env' : TypeEnv}

theorem closed (h : GroupFound T env st.bindings g ss env') (hst : Solved st.bindings) (henv : env.Closed) :
    env'.Closed := by
  cases h with
  | single noVars takes typed =>
    obtain ⟨parts, hparts, -⟩ := distribute_parts _ _ (takes_schemaOf hst noVars takes)
    exact bindPattern_closed henv (generalizes_schemaOf hst noVars).closed hparts
  | recursive noVars takes typed =>
    exact henv.bindAll (List.forall_mem_map.2 fun b hb => (generalizes_schemaOf hst (noVars b hb)).closed)

theorem aliases_eq {bs : Bindings} (h : GroupFound T env bs g ss env') : env'.aliases = env.aliases := by
  cases h with
  | single noVars takes typed => exact aliases_bindPattern _ _ _
  | recursive noVars takes typed => exact TypeEnv.aliases_bindAll _ _

end GroupFound

/-- Predicates of expressions and of blocks that are closed under the typing rules. -/
structure Judgement where
  /-- In the environment, with monotypes for its holes, the expression has the type. -/
  Types : TypeEnv → (Nat → Mono) → Expr → Mono → Prop
  /-- The statements run in the context of the given type and give a result of the other type. -/
  Runs : TypeEnv → (Nat → Mono) → Mono → List Stmt → Mono → Prop
  bool {env θ span b} : Types env θ (.bool span b) .bool
  int {env θ span n} : Types env θ (.int span n) .int
  string {env θ span s} : Types env θ (.string span s) .string
  code {env θ span text} : Types env θ (.code span text) .term
  termType {env θ span text} : Types env θ (.termType span text) .termType
  array {env θ span es τ} : (∀ e ∈ es, Types env θ e τ) → Types env θ (.array span es) (.list τ)
  tuple {env θ span es τs} : List.Forall₂ (Types env θ) es τs → Types env θ (.tuple span es) (.tuple τs)
  record {env θ span fields bs} : (Table.names fields).Nodup →
    List.Forall₂ (fun (f : String × Expr) (b : String × Mono) => f.1 = b.1 ∧ Types env θ f.2 b.2) fields bs →
    Types env θ (.record span fields) (.record (Table.get? bs))
  index {env θ span a i τ} : Types env θ a (.list τ) → Types env θ i .int → Types env θ (.index span a i) τ
  field {env θ span e name fs τ} : Types env θ e (.record fs) → fs name = some τ →
    Types env θ (.field span e name) τ
  proj {env θ span e i τs τ} : Types env θ e (.tuple τs) → τs[i]? = some τ → Types env θ (.proj span e i) τ
  var {env θ span x s} : Table.get? env.types x = some s → ∀ ρ, Types env θ (.var span x) (s.type.denote θ ρ)
  lam {env θ span p e binds τ υ} : (∀ b ∈ binds, b.2.NoVars) → p.Takes env.aliases τ (typingsUnder θ binds) →
    Types (bindMono env binds) θ e υ → Types env θ (.lam span p e) (.fn τ υ)
  app {env θ span f a τ υ} : Types env θ f (.fn τ υ) → Types env θ a τ → Types env θ (.app span f a) υ
  letIn {env θ span g e τ ss env'} {st : CheckState} :
    Solved st.bindings → GroupFound Types env st.bindings g ss env' →
    Solves θ st.bindings → Types env' θ e τ → Types env θ (.letIn span g e) τ
  typed {env θ span e t τ} : Ascribes env.aliases t τ → Types env θ e τ → Types env θ (.typed span e t) τ
  ite {env θ span c y n τ} : Types env θ c .bool → Types env θ y τ → Types env θ n τ → Types env θ (.ite span c y n) τ
  block {env θ span body c τ} : Runs env θ c body τ → Types env θ (.block span body) (.block c τ)
  paren {env θ span e τ} : Types env θ e τ → Types env θ (.paren span e) τ
  last {env θ c span p e τ bs} : Types env θ e (.block c τ) → p.Takes env.aliases τ bs → p.isWildcard →
    Runs env θ c [.bind span p e] τ
  bind {env θ c span p e binds υ τ stmt rest} : (∀ b ∈ binds, b.2.NoVars) → Types env θ e (.block c υ) →
    p.Takes env.aliases υ (typingsUnder θ binds) → Runs (bindMono env binds) θ c (stmt :: rest) τ →
    Runs env θ c (.bind span p e :: stmt :: rest) τ
  define {env θ c span g rest τ ss env'} {st : CheckState} :
    Solved st.bindings → GroupFound Types env st.bindings g ss env' →
    Solves θ st.bindings → Runs env' θ c rest τ → Runs env θ c (.define span g :: rest) τ
  typedef {env θ c span name t u rest τ} : t.resolve env.aliases = .ok u →
    Runs (env.bindAlias name u) θ c rest τ → Runs env θ c (.typedef span name t :: rest) τ
  codeStmt {env θ c span text rest τ} : Runs env θ c rest τ → Runs env θ c (.code span text :: rest) τ
  importTerms {env θ c span file qualifier rest τ} : Runs env θ c rest τ →
    Runs env θ c (.importTerms span file qualifier :: rest) τ

/-! ## Learning under every solution -/

/-- If the check succeeds, `P` holds of its result, and `F` holds of it under every solution of the bindings. -/
def Learns {α : Type} (x : Check α) (st : CheckState) (P : α → Prop) (F : α → (Nat → Mono) → Prop) : Prop :=
  Yields x st fun a st' => st.Reached st' ∧ P a ∧ ∀ θ, Solves θ st'.bindings → F a θ

namespace Learns

variable {α β : Type} {x : Check α} {st1 : CheckState} {P : α → Prop} {F F' : α → (Nat → Mono) → Prop}

theorem pure {a : α} (hst : Solved st.bindings) (ha : P a) (h : ∀ θ, F a θ) : Learns (Pure.pure a) st P F :=
  ⟨.refl hst, ha, fun θ _ => h θ⟩

theorem imp (h : Learns x st P F) (hF : ∀ a θ, F a θ → F' a θ) : Learns x st P F' :=
  Yields.imp h fun a _ ⟨hr, ha, h⟩ => ⟨hr, ha, fun θ hθ => hF a θ (h θ hθ)⟩

/-- Steps that come later keep what solves the bindings of the state before them. -/
theorem after (hr : st.Reached st1) (h : Learns x st1 P fun a θ => Solves θ st1.bindings → F a θ) :
    Yields x st1 fun a st' => st.Reached st' ∧ P a ∧ ∀ θ, Solves θ st'.bindings → F a θ :=
  Yields.imp h fun _ _ ⟨hr2, ha, hF⟩ => ⟨hr.trans hr2, ha, fun θ hθ => hF θ hθ (hr2.solves hθ)⟩

theorem bind {f : α → Check β} {Q : β → Prop} {G : β → (Nat → Mono) → Prop} (hx : Learns x st P F)
    (hf : ∀ a st1, Solved st1.bindings → P a → Learns (f a) st1 Q fun b θ => F a θ → G b θ) :
    Learns (x >>= f) st Q G :=
  Yields.bind hx fun a st1 ⟨hr, ha, hF⟩ => after hr ((hf a st1 hr.solved ha).imp fun _ θ hG hθ => hG (hF θ hθ))

theorem visited {kind : String} {next : Unit → Check α} (hst : Solved st.bindings)
    (h : ∀ st1, Solved st1.bindings → Learns (next ()) st1 P F) : Learns (visit kind >>= next) st P F :=
  visit_yields hst fun st1 hr => after hr ((h st1 hr.solved).imp fun _ _ hF _ => hF)

theorem fresh (hst : Solved st.bindings) : Learns fresh st NoVars fun _ _ => True :=
  Yields.imp (fresh_yields hst) fun _ _ h => ⟨h.1, h.2, fun _ _ => trivial⟩

theorem unify {t u : Ty} {span : Option Span} (hst : Solved st.bindings) (ht : t.NoVars) (hu : u.NoVars) :
    Learns (unify t u span) st (fun _ => True) fun _ θ => t.under θ = u.under θ :=
  Yields.imp (unify_yields hst ht hu) fun _ _ ⟨hr, h⟩ => ⟨hr, trivial, h⟩

theorem pattern {p : Pattern} (henv : env.Closed) (hp : p.AllTypes Ground) (hst : Solved st.bindings) :
    Learns (inferPattern env p) st (fun r => r.1.NoVars ∧ ∀ b ∈ r.2, b.2.NoVars)
      fun r θ => p.Takes env.aliases (r.1.under θ) (typingsUnder θ r.2) :=
  Yields.imp (inferPattern_sound henv p hp hst) fun _ _ ⟨hr, ht, hbinds, h⟩ => ⟨hr, ⟨ht, hbinds⟩, h⟩

theorem part {t : Ty} {part : Ty → Check Ty} {R : Mono → Mono → Prop} (hst : Solved st.bindings) (ht : t.NoVars)
    (hpart : ∀ u, u.NoVars →
      Yields (part u) st fun v st' => st' = st ∧ v.NoVars ∧ ∀ θ, R (u.under θ) (v.under θ)) :
    Learns (zonk t >>= part) st NoVars fun v θ => R (t.under θ) (v.under θ) := by
  refine (zonk_yields hst ht).bind ?_
  rintro u _ ⟨rfl, hu, hsame⟩
  refine (hpart u hu).imp ?_
  rintro v _ ⟨rfl, hv, hfound⟩
  refine ⟨.refl hst, hv, fun θ hθ => ?_⟩
  have hpart := hfound θ
  rwa [hsame θ hθ] at hpart

end Learns

theorem recordField_yields {t : Ty} {name : String} {span : Span} (ht : t.NoVars) :
    Yields (recordField t name span) st fun u st' => st' = st ∧ u.NoVars ∧
      ∀ θ, ∃ fs, t.under θ = .record fs ∧ fs name = some (u.under θ) := by
  unfold recordField
  split
  · rename_i fields
    split
    · rename_i u hu
      refine ⟨rfl, noVars_record.1 ht _ (Table.mem_of_get? hu), fun θ => ⟨_, under_record θ fields, ?_⟩⟩
      simp [hu]
    · exact trivial
  · exact trivial
  · exact trivial

theorem tupleElem_yields {t : Ty} {i : Nat} {span : Span} (ht : t.NoVars) :
    Yields (tupleElem t i span) st fun u st' => st' = st ∧ u.NoVars ∧
      ∀ θ, ∃ τs, t.under θ = .tuple τs ∧ τs[i]? = some (u.under θ) := by
  unfold tupleElem
  split
  · rename_i elems
    split
    · rename_i u hu
      refine ⟨rfl, noVars_con.1 ht _ (List.mem_of_getElem? hu), fun θ => ⟨_, under_con θ _ elems, ?_⟩⟩
      simp [hu]
    · exact trivial
  · exact trivial
  · exact trivial

section
variable (J : Judgement)

mutual

theorem inferExpr_reads {env : TypeEnv} {st : CheckState} : ∀ e : Expr, env.Closed → e.AllTypes Ground →
    Solved st.bindings → Learns (inferExpr env e) st NoVars fun t θ => J.Types env θ e (t.under θ)
  | .bool _ _, henv, he, hst => by
    unfold inferExpr
    exact .visited hst fun _ hst => .pure hst (noVars_con.2 (List.forall_mem_nil _)) fun _ => J.bool
  | .int _ _, henv, he, hst => by
    unfold inferExpr
    exact .visited hst fun _ hst => .pure hst (noVars_con.2 (List.forall_mem_nil _)) fun _ => J.int
  | .string _ _, henv, he, hst => by
    unfold inferExpr
    exact .visited hst fun _ hst => .pure hst (noVars_con.2 (List.forall_mem_nil _)) fun _ => J.string
  | .code _ _, henv, he, hst => by
    unfold inferExpr
    exact .visited hst fun _ hst => .pure hst (noVars_con.2 (List.forall_mem_nil _)) fun _ => J.code
  | .termType _ _, henv, he, hst => by
    unfold inferExpr
    exact .visited hst fun _ hst => .pure hst (noVars_con.2 (List.forall_mem_nil _)) fun _ => J.termType
  | .array _ es, henv, he, hst => by
    unfold inferExpr
    refine .visited hst fun _ hst => (Learns.fresh hst).bind fun t _ hst ht => ?_
    refine (inferElems_reads es henv he ht hst).bind fun _ _ hst _ => ?_
    refine .pure hst (noVars_list ht) fun θ htyped _ => ?_
    rw [under_list]
    exact J.array htyped
  | .tuple _ es, henv, he, hst => by
    unfold inferExpr
    refine .visited hst fun _ hst => (inferExprs_reads es henv he hst).bind fun ts _ hst hts => ?_
    refine .pure hst (noVars_con.2 hts) fun θ htyped => ?_
    rw [under_tuple]
    exact J.tuple htyped
  | .record span fields, henv, he, hst => by
    unfold inferExpr
    refine .visited hst fun _ hst => ?_
    dsimp only
    split
    · exact trivial
    · rename_i hdistinct
      refine (inferFields_reads fields henv he hst).bind fun ts _ hst hts => ?_
      refine .pure hst (noVars_record.2 hts) fun θ htyped => ?_
      have hunder : (Ty.record ts).under θ = .record (Table.get? (typingsUnder θ ts)) := by
        rw [under_record]
        exact congrArg Mono.record (funext fun name => (Table.get?_map (under θ) ts name).symm)
      rw [hunder]
      exact J.record (nodup_of_firstDuplicate_eq_none (Option.eq_none_iff_forall_ne_some.2 hdistinct)) htyped
  | .index _ a i, henv, he, hst => by
    unfold inferExpr
    refine .visited hst fun _ hst => (Learns.fresh hst).bind fun t _ hst ht => ?_
    refine (inferExpr_reads a henv he.1 hst).bind fun u _ hst hu => ?_
    refine (Learns.unify hst (noVars_list ht) hu).bind fun _ _ hst _ => ?_
    refine (inferExpr_reads i henv he.2 hst).bind fun v _ hst hv => ?_
    refine (Learns.unify hst noVars_int hv).bind fun _ _ hst _ => ?_
    refine .pure hst ht fun θ hint hindex hlist harray _ => ?_
    rw [← hlist, under_list] at harray
    rw [← hint, under_int] at hindex
    exact J.index harray hindex
  | .field span e name, henv, he, hst => by
    unfold inferExpr
    refine .visited hst fun _ hst => (inferExpr_reads e henv he hst).bind fun t _ hst ht => ?_
    refine (Learns.part (R := fun τ υ => ∃ fs, τ = .record fs ∧ fs name = some υ) hst ht
      fun u hu => recordField_yields hu).imp ?_
    rintro v θ ⟨fs, hrecord, hget⟩ htyped
    exact J.field (hrecord ▸ htyped) hget
  | .proj span e i, henv, he, hst => by
    unfold inferExpr
    refine .visited hst fun _ hst => (inferExpr_reads e henv he hst).bind fun t _ hst ht => ?_
    refine (Learns.part (R := fun τ υ => ∃ τs, τ = .tuple τs ∧ τs[i]? = some υ) hst ht
      fun u hu => tupleElem_yields hu).imp ?_
    rintro v θ ⟨τs, htuple, hget⟩ htyped
    exact J.proj (htuple ▸ htyped) hget
  | .var span name, henv, he, hst => by
    unfold inferExpr
    refine .visited hst fun _ hst => ?_
    split
    · rename_i s hs
      refine (instantiate_yields hst (henv.types _ (Table.mem_of_get? hs))).imp fun t _ ⟨hr, ht, hinst⟩ => ?_
      refine ⟨hr, ht, fun θ hθ => ?_⟩
      obtain ⟨ρ, hρ⟩ := hinst θ
      exact hρ ▸ J.var hs ρ
    · exact trivial
  | .lam _ p e, henv, he, hst => by
    unfold inferExpr
    refine .visited hst fun _ hst => (Learns.pattern henv he.1 hst).bind fun r _ hst ⟨ht, hbinds⟩ => ?_
    refine (inferExpr_reads e (henv.bindMono hbinds) he.2 hst).bind fun u _ hst hu => ?_
    refine .pure hst (noVars_fn ht hu) fun θ htyped htakes => ?_
    rw [under_fn]
    exact J.lam hbinds htakes htyped
  | .app span f a, henv, he, hst => by
    unfold inferExpr
    refine .visited hst fun _ hst => (inferExpr_reads f henv he.1 hst).bind fun t _ hst ht => ?_
    refine (inferExpr_reads a henv he.2 hst).bind fun u _ hst hu => ?_
    refine (Learns.fresh hst).bind fun v _ hst hv => ?_
    refine (Learns.unify hst (noVars_fn hu hv) ht).bind fun _ _ hst _ => ?_
    refine .pure hst hv fun θ heq _ ha hf => ?_
    rw [← heq, under_fn] at hf
    exact J.app hf ha
  | .letIn _ g e, henv, he, hst => by
    unfold inferExpr
    refine .visited hst fun _ hst => (inferGroup_reads g henv he.1 hst).bind fun r _ ⟨hr, hg⟩ => Learns.after hr ?_
    exact (inferExpr_reads e (hg.closed hr.solved henv) he.2 hr.solved).imp
      fun t θ htyped hθ => J.letIn hr.solved hg hθ htyped
  | .typed span e t, henv, he, hst => by
    unfold inferExpr
    refine .visited hst fun _ hst => (resolve_yields henv he.1).bind ?_
    rintro u _ ⟨rfl, hu, -, hwritten⟩
    refine (inferExpr_reads e henv he.2 hst).bind fun v _ hst hv => ?_
    refine (Learns.unify hst hu.2 hv).bind fun _ _ hst _ => ?_
    exact .pure hst hu.2 fun θ heq htyped => J.typed (hwritten θ) (heq ▸ htyped)
  | .ite _ c y n, henv, he, hst => by
    unfold inferExpr
    refine .visited hst fun _ hst => (inferExpr_reads c henv he.1 hst).bind fun t _ hst ht => ?_
    refine (Learns.unify hst noVars_bool ht).bind fun _ _ hst _ => ?_
    refine (inferExpr_reads y henv he.2.1 hst).bind fun u _ hst hu => ?_
    refine (inferExpr_reads n henv he.2.2 hst).bind fun v _ hst hv => ?_
    refine (Learns.unify hst hu hv).bind fun _ _ hst _ => ?_
    refine .pure hst hu fun θ hsame hn hy hbool hc => ?_
    rw [← hbool, under_bool] at hc
    exact J.ite hc hy (hsame ▸ hn)
  | .block span body, henv, he, hst => by
    unfold inferExpr
    refine .visited hst fun _ hst => ?_
    dsimp only
    split
    · exact trivial
    · refine (Learns.fresh hst).bind fun c _ hst hc => ?_
      refine (inferBody_reads body henv he hc hst).bind fun t _ hst ht => ?_
      refine .pure hst (noVars_block hc ht) fun θ htyped _ => ?_
      rw [under_block]
      exact J.block htyped
  | .paren _ e, henv, he, hst => by
    unfold inferExpr
    exact .visited hst fun _ hst => (inferExpr_reads e henv he hst).imp fun t θ => J.paren

theorem inferElems_reads {env : TypeEnv} {t : Ty} {st : CheckState} : ∀ es : List Expr, env.Closed →
    Expr.AllTypesList Ground es → t.NoVars → Solved st.bindings →
    Learns (inferElems env t es) st (fun _ => True) fun _ θ => ∀ e ∈ es, J.Types env θ e (t.under θ)
  | [], henv, _, ht, hst => by
    unfold inferElems
    exact .pure hst trivial fun _ => List.forall_mem_nil _
  | e :: es, henv, hes, ht, hst => by
    unfold inferElems
    refine (inferExpr_reads e henv hes.1 hst).bind fun u _ hst hu => ?_
    refine (Learns.unify hst ht hu).bind fun _ _ hst _ => ?_
    exact (inferElems_reads es henv hes.2 ht hst).imp
      fun _ θ hrest heq htyped => List.forall_mem_cons.2 ⟨heq ▸ htyped, hrest⟩

theorem inferExprs_reads {env : TypeEnv} {st : CheckState} : ∀ es : List Expr, env.Closed →
    Expr.AllTypesList Ground es → Solved st.bindings →
    Learns (inferExprs env es) st (fun ts => ∀ t ∈ ts, t.NoVars) fun ts θ =>
      List.Forall₂ (J.Types env θ) es (ts.map (under θ))
  | [], henv, _, hst => by
    unfold inferExprs
    exact .pure hst (List.forall_mem_nil _) fun _ => .nil
  | e :: es, henv, hes, hst => by
    unfold inferExprs
    refine (inferExpr_reads e henv hes.1 hst).bind fun t _ hst ht => ?_
    refine (inferExprs_reads es henv hes.2 hst).bind fun ts _ hst hts => ?_
    exact .pure hst (List.forall_mem_cons.2 ⟨ht, hts⟩) fun θ hrest htyped => .cons htyped hrest

theorem inferFields_reads {env : TypeEnv} {st : CheckState} : ∀ fields : List (String × Expr), env.Closed →
    Expr.AllTypesFields Ground fields → Solved st.bindings →
    Learns (inferFields env fields) st (fun ts => ∀ t ∈ ts, t.2.NoVars) fun ts θ =>
      List.Forall₂ (fun (f : String × Expr) (b : String × Mono) => f.1 = b.1 ∧ J.Types env θ f.2 b.2) fields
        (typingsUnder θ ts)
  | [], henv, _, hst => by
    unfold inferFields
    exact .pure hst (List.forall_mem_nil _) fun _ => .nil
  | (name, e) :: fields, henv, hes, hst => by
    unfold inferFields
    refine (inferExpr_reads e henv hes.1 hst).bind fun t _ hst ht => ?_
    refine (inferFields_reads fields henv hes.2 hst).bind fun ts _ hst hts => ?_
    exact .pure hst (List.forall_mem_cons.2 ⟨ht, hts⟩) fun θ hrest htyped => .cons ⟨rfl, htyped⟩ hrest

theorem inferBody_reads {env : TypeEnv} {c : Ty} {st : CheckState} : ∀ stmts : List Stmt, env.Closed →
    Stmt.AllTypesList Ground stmts → c.NoVars → Solved st.bindings → Learns (inferBody env c stmts) st NoVars fun t θ =>
      J.Runs env θ (c.under θ) stmts (t.under θ)
  | [], henv, _, hc, hst => by
    unfold inferBody
    exact trivial
  | .bind span p e :: rest, henv, he, hc, hst => by
    unfold inferBody
    refine (inferExpr_reads e henv he.1.2 hst).bind fun t _ hst ht => ?_
    refine (Learns.fresh hst).bind fun v _ hst hv => ?_
    refine (Learns.unify hst (noVars_block hc hv) ht).bind fun _ _ hst _ => ?_
    refine (Learns.pattern henv he.1.1 hst).bind fun r _ hst ⟨hpt, hbinds⟩ => ?_
    refine (Learns.unify hst hpt hv).bind fun _ st hst _ => ?_
    have haction : ∀ {θ}, (Ty.block c v).under θ = t.under θ → J.Types env θ e (t.under θ) →
        J.Types env θ e (.block (c.under θ) (v.under θ)) := by
      intro θ heq htyped
      rwa [← heq, under_block] at htyped
    cases rest with
    | nil =>
      rw [if_pos List.isEmpty_nil]
      split
      · rename_i hwildcard
        exact .pure hst hv fun θ heq' htakes heq _ htyped => J.last (haction heq htyped) (heq' ▸ htakes) hwildcard
      · exact trivial
    | cons stmt rest =>
      rw [if_neg (by simp)]
      exact (inferBody_reads (stmt :: rest) (henv.bindMono hbinds) he.2 hc hst).imp
        fun u θ hbody heq' htakes heq _ htyped => J.bind hbinds (haction heq htyped) (heq' ▸ htakes) hbody
  | .define span g :: rest, henv, he, hc, hst => by
    unfold inferBody
    dsimp only
    split
    · exact trivial
    · refine (inferGroup_reads g henv he.1 hst).bind fun r _ ⟨hr, hg⟩ => Learns.after hr ?_
      exact (inferBody_reads rest (hg.closed hr.solved henv) he.2 hc hr.solved).imp
        fun t θ hbody hθ => J.define hr.solved hg hθ hbody
  | .typedef span name t :: rest, henv, he, hc, hst => by
    unfold inferBody
    dsimp only
    split
    · exact trivial
    · refine (resolve_yields henv he.1).bind ?_
      rintro u _ ⟨rfl, hu, hresolved, -⟩
      exact (inferBody_reads rest (henv.bindAlias hu) he.2 hc hst).imp fun v θ => J.typedef hresolved
  | .code span text :: rest, henv, he, hc, hst => by
    unfold inferBody
    dsimp only
    split
    · exact trivial
    · exact (inferBody_reads rest henv he.2 hc hst).imp fun t θ => J.codeStmt
  | .importTerms span file qualifier :: rest, henv, he, hc, hst => by
    unfold inferBody
    dsimp only
    split
    · exact trivial
    · exact (inferBody_reads rest henv he.2 hc hst).imp fun t θ => J.importTerms

theorem inferBound_reads {env : TypeEnv} {st : CheckState} : ∀ d : Decl, env.Closed → d.AllTypes Ground →
    Solved st.bindings → Learns (inferBound env d) st NoVars fun t θ => J.Types env θ d.body (t.under θ) ∧
      ∃ typings, d.pattern.Takes env.aliases (t.under θ) typings
  | .mk span p e, henv, hd, hst => by
    unfold inferBound
    refine (inferExpr_reads e henv hd.2 hst).bind fun t _ hst ht => ?_
    refine (Learns.pattern henv hd.1 hst).bind fun r _ hst ⟨hpt, _⟩ => ?_
    refine (Learns.unify hst hpt ht).bind fun _ _ hst _ => ?_
    exact .pure hst ht fun θ heq htakes htyped => ⟨htyped, _, heq ▸ htakes⟩

theorem inferBodies_reads {env : TypeEnv} {st : CheckState} : ∀ (ds : List Decl) (binds : List (String × Ty)),
    env.Closed → Decl.AllTypesList Ground ds → (∀ b ∈ binds, b.2.NoVars) → ds.length = binds.length →
    Solved st.bindings → Learns (inferBodies env ds (binds.map (·.2))) st (fun _ => True) fun _ θ =>
      List.Forall₂ (fun d b => J.Types env θ d.body (b.2.under θ)) ds binds
  | .mk span p e :: ds, b :: binds, henv, hds, hbinds, hlength, hst => by
    obtain ⟨hb, hbinds⟩ := List.forall_mem_cons.1 hbinds
    unfold inferBodies
    rw [List.map_cons]
    dsimp only
    refine (inferExpr_reads e henv hds.1.2 hst).bind fun u _ hst hu => ?_
    refine (Learns.unify hst hb hu).bind fun _ _ hst _ => ?_
    exact (inferBodies_reads ds binds henv hds.2 hbinds (Nat.succ.inj hlength) hst).imp
      fun _ θ hrest heq htyped => .cons (heq ▸ htyped) hrest
  | [], [], henv, hds, hbinds, hlength, hst => by
    unfold inferBodies
    exact .pure hst trivial fun _ => .nil

theorem inferGroup_reads {env : TypeEnv} {st : CheckState} : ∀ g : Group, env.Closed → g.AllTypes Ground →
    Solved st.bindings → Yields (inferGroup env g) st fun r st' => st.Reached st' ∧
      GroupFound J.Types env st'.bindings g r.1 r.2
  | .single span (.mk dspan p e), henv, hg, hst => by
    unfold inferGroup
    rw [inferDecl_eq, yields_bind, yields_bind]
    refine Yields.imp (inferBound_reads (.mk dspan p e) henv hg hst) fun t st1 ⟨hr1, ht, hfound⟩ => ?_
    refine yields_generalize.2 ?_
    exact ⟨hr1, .single ht (fun θ hθ => (hfound θ hθ).2) fun θ hθ => (hfound θ hθ).1⟩
  | .recursive span ds, henv, hg, hst => by
    unfold inferGroup
    refine (inferMembers_sound henv ds hg env hst).bind ?_
    rintro ⟨_, _⟩ st1 ⟨hr1, binds, rfl, rfl, hbinds, htakes⟩
    -- some solution shows which names the members bind
    have hsome := htakes _ (Ty.solves_solution hr1.solved fun _ => .unit)
    refine Yields.bind (inferBodies_reads ds binds (henv.bindMono hbinds) hg hbinds ?_ hr1.solved)
      fun _ st2 ⟨hr2, _, htyped⟩ => ?_
    · simpa [typingsUnder] using hsome.length_eq
    refine (generalizeAll_yields (binds.map (·.2))).bind ?_
    rintro _ st2 ⟨rfl, rfl⟩
    have hschemas : (binds.map (·.2)).map (schemaOf env st2.bindings) =
        binds.map fun b => schemaOf env st2.bindings b.2 := List.map_map
    refine ⟨hr1.trans hr2, ?_⟩
    rw [hschemas, foldl_bindMember _ hsome]
    exact .recursive hbinds (fun θ hθ => htakes θ (hr2.solves hθ)) htyped

end

end

end Check

end VeriScript
