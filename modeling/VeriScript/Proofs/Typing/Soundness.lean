import VeriScript.Proofs.Script.Parts
import VeriScript.Proofs.Typing.Declarative
import VeriScript.Proofs.Typing.Inference
import VeriScript.Proofs.Typing.Weakening

/-!
# What inference finds is derivable

A type that inference finds is read under monotypes for its holes.  A declaration is derived for monotypes in which
the holes that are generalised are new variables, so that there have to be variables left: all the monotypes at hand
have variables with short names.

* `Check.Accounts` — assumptions have the types that an environment stands for, with short names.
* `Check.Accounts.exists_general` — solutions with new variables for the holes that are generalised.
* `Check.derivable` — what is found is derivable, under any solution.
* `checkExpr_derives` — every instance of the schema of an expression is derivable.
-/

namespace VeriScript

open Ty (NoVars Solves Solved under Ground)
open TypeEnv (typingsUnder)

/-! ## Short names -/

/-- The names of the variables are shorter than `n`. -/
def Mono.Short (n : Nat) (τ : Mono) : Prop :=
  ∀ x, τ.Occurs x → x.length < n

section
variable {n m : Nat} {τ υ : Mono} {t : Ty} {θ : Nat → Mono} {ρ : String → Mono} {bs : Bindings}

theorem Mono.occurs_var_iff {x y : String} : (Mono.var y).Occurs x ↔ x = y := by
  refine ⟨fun h => ?_, fun h => h ▸ .var⟩
  cases h with
  | var => rfl
  | part hpart _ => cases hpart

theorem Mono.not_occurs_unit {x : String} : ¬ Mono.unit.Occurs x := by
  intro h
  cases h with
  | part hpart _ =>
    cases hpart with
    | arg hmem => cases hmem

theorem Mono.Short.mono (h : τ.Short n) (hle : n ≤ m) : τ.Short m :=
  fun x hx => Nat.lt_of_lt_of_le (h x hx) hle

theorem Mono.Short.part (h : τ.Short n) (hpart : Relation.ReflTransGen Mono.Part υ τ) : υ.Short n := by
  induction hpart with
  | refl => exact h
  | tail _ hstep ih => exact ih fun x hx => h x (.part hstep hx)

/-- Longer names can be given other monotypes. -/
theorem Mono.Short.subst_eq (h : τ.Short n) (hρ : ∀ x : String, x.length < n → ρ x = .var x) : τ.subst ρ = τ :=
  (Mono.subst_congr fun x hx => hρ x (h x hx)).trans τ.subst_var

theorem Ty.NoVars.short (ht : t.NoVars) (hθ : ∀ i, (θ i).Short n) : (t.under θ).Short n := by
  intro x hx
  obtain ⟨i, -, hi⟩ | ⟨y, hy, -⟩ := Ty.occurs_denote hx
  · exact hθ i x hi
  · exact absurd hy (ht y)

theorem Ty.NoVars.under_subst (ht : t.NoVars) : (t.under θ).subst ρ = t.under fun i => (θ i).subst ρ :=
  (Ty.denote_subst t).trans ht.denote_eq

theorem exists_length_lt (names : List String) : ∃ n, ∀ x ∈ names, x.length < n := by
  induction names with
  | nil => exact ⟨0, List.forall_mem_nil _⟩
  | cons x names ih =>
    obtain ⟨n, hn⟩ := ih
    refine ⟨max n (x.length + 1), List.forall_mem_cons.2 ⟨by omega, fun y hy => ?_⟩⟩
    have := hn y hy
    omega

/-- A solution under which a type has short names can be had in short names. -/
theorem exists_short_solution (hbs : ∀ b ∈ bs, b.2.NoVars) (ht : t.NoVars) (hθ : Solves θ bs)
    (h : (t.under θ).Short n) : ∃ θ', Solves θ' bs ∧ (∀ i, (θ' i).Short n) ∧ t.under θ' = t.under θ := by
  -- long names stand for the unit type
  refine ⟨fun i => (θ i).subst fun x => if x.length < n then .var x else .unit, fun b hb => ?_, fun i x hx => ?_, ?_⟩
  · exact (congrArg _ (hθ b hb)).trans (hbs b hb).under_subst
  · obtain ⟨y, -, hy⟩ := Mono.occurs_subst hx
    split at hy
    · obtain rfl := Mono.occurs_var_iff.1 hy
      assumption
    · exact absurd hy Mono.not_occurs_unit
  · rw [← ht.under_subst]
    exact h.subst_eq fun x hx => if_pos hx

end

/-- A name takes the whole type. -/
theorem Pattern.Takes.eq_of_isName {al : Aliases} {name : String} {τ : Mono} {bs : Typings} : ∀ {p : Pattern},
    p.Takes al τ bs → p.isName → p.names = [name] → bs = [(name, τ)]
  | .var _ _ _, h, _, hname => by
    cases h
    obtain ⟨rfl, -⟩ := List.cons_eq_cons.1 hname
    rfl
  | .paren _ _ _, h, hisName, hname => by
    cases h with
    | paren written inner => exact inner.eq_of_isName hisName hname

/-! ## Assumptions for an environment -/

namespace Assumptions

/-- The types that names have by the assumptions. -/
def scope (Γ : Assumptions) : Scope := fun x τ =>
  ∃ σ, Table.get? Γ x = some σ ∧ σ.Instance τ

theorem free_bind {Γ : Assumptions} {entries : List (String × Poly)} {x : String} (h : (Γ.bind entries).Free x) :
    (∃ m ∈ entries, m.2.type.Occurs x) ∨ Γ.Free x := by
  obtain ⟨y, σ, hget, hfree⟩ := h
  rw [get?_bind] at hget
  cases hentry : Table.get? entries.reverse y with
  | none =>
    rw [hentry, Option.none_or] at hget
    exact .inr ⟨y, σ, hget, hfree⟩
  | some σ' =>
    rw [hentry] at hget
    cases hget
    exact .inl ⟨(y, σ), List.mem_reverse.1 (Table.mem_of_get? hentry), hfree.1⟩

end Assumptions

namespace Check

/-- The assumptions have the types that the environment stands for, and all the variables have short names. -/
structure Accounts (Γ : Assumptions) (θ : Nat → Mono) (env : TypeEnv) : Prop where
  short : ∃ n, (∀ i, (θ i).Short n) ∧ ∀ x, Γ.Free x → x.length < n
  scope : (env.under θ).Below Γ.scope

variable {Γ : Assumptions} {θ : Nat → Mono} {env env' : TypeEnv} {st : CheckState}

theorem Accounts.bind (h : Accounts Γ θ env) {entries : List (String × Poly)}
    (hshort : ∃ n, ∀ m ∈ entries, m.2.type.Short n)
    (hnew : ∀ x τ, env'.under θ x τ → (∃ σ, Table.get? entries.reverse x = some σ ∧ σ.Instance τ) ∨
      Table.get? entries.reverse x = none ∧ env.under θ x τ) : Accounts (Γ.bind entries) θ env' := by
  obtain ⟨n, hθ, hfree⟩ := h.short
  obtain ⟨m, hentries⟩ := hshort
  refine ⟨⟨max n m, fun i => (hθ i).mono (Nat.le_max_left _ _), fun x hx => ?_⟩, fun x τ hτ => ?_⟩
  · obtain ⟨e, he, hx⟩ | hx := Assumptions.free_bind hx
    · exact Nat.lt_of_lt_of_le (hentries e he x hx) (Nat.le_max_right _ _)
    · exact Nat.lt_of_lt_of_le (hfree x hx) (Nat.le_max_left _ _)
  · obtain ⟨σ, hget, hinst⟩ | ⟨hnone, hτ⟩ := hnew x τ hτ
    · exact ⟨σ, by rw [Assumptions.get?_bind, hget, Option.some_or], hinst⟩
    · obtain ⟨σ, hget, hinst⟩ := h.scope x τ hτ
      exact ⟨σ, by rw [Assumptions.get?_bind, hnone, Option.none_or, hget], hinst⟩

variable {binds : List (String × Ty)}

theorem Accounts.bindMono (h : Accounts Γ θ env) (hbinds : ∀ b ∈ binds, b.2.NoVars) :
    Accounts (Γ.bind (quantify [] (typingsUnder θ binds))) θ (bindMono env binds) := by
  obtain ⟨n, hθ, -⟩ := h.short
  refine h.bind ⟨n, fun m hm => ?_⟩ fun x τ hτ => ?_
  · obtain ⟨_, htyping, rfl⟩ := List.mem_map.1 hm
    obtain ⟨b, hb, rfl⟩ := List.mem_map.1 htyping
    exact (hbinds b hb).short hθ
  · rw [TypeEnv.under_bindMono hbinds] at hτ
    unfold Scope.bind at hτ
    rw [get?_quantify]
    cases hget : Table.get? (typingsUnder θ binds).reverse x with
    | none =>
      simp only [hget] at hτ
      exact .inr ⟨rfl, hτ⟩
    | some υ =>
      simp only [hget] at hτ
      subst hτ
      exact .inl ⟨_, rfl, .var, fun _ _ => rfl, (Mono.subst_var _).symm⟩

/-! ## New variables -/

def longName (n : Nat) : String :=
  String.ofList (List.replicate n 'a')

theorem length_longName (n : Nat) : (longName n).length = n := by
  simp [longName]

/-- The holes of types that are generalised. -/
def generalHoles (env : TypeEnv) (bs : Bindings) (ts : List Ty) : List Nat :=
  (ts.flatMap fun t => (Ty.applyBindings bs t).holes).filter (· ∉ keptHoles env bs)

/-- Monotypes with new variables, longer than `n`, for some of the holes. -/
def renew (θ : Nat → Mono) (holes : List Nat) (n : Nat) : Nat → Mono :=
  fun i => if i ∈ holes then .var (longName (n + i)) else θ i

section
variable {bs : Bindings} {ts : List Ty} {t : Ty} {holes : List Nat} {n : Nat}

theorem renew_of_kept {i : Nat} (hi : i ∈ keptHoles env bs) : renew θ (generalHoles env bs ts) n i = θ i :=
  if_neg fun hmem => by simpa [hi] using (List.mem_filter.1 hmem).2

theorem exists_short_renew (h : ∀ i, (θ i).Short n) (holes : List Nat) : ∃ m, ∀ i, (renew θ holes n i).Short m := by
  obtain ⟨m, hm⟩ := exists_length_lt (holes.map fun i => longName (n + i))
  refine ⟨max n m, fun i => ?_⟩
  unfold renew
  split
  · rename_i hi
    intro x hx
    obtain rfl := Mono.occurs_var_iff.1 hx
    exact Nat.lt_of_lt_of_le (hm _ (List.mem_map_of_mem hi)) (Nat.le_max_right _ _)
  · exact (h i).mono (Nat.le_max_left _ _)

/-- A solution stands for the same environment if it has the same monotypes for the holes that are kept. -/
theorem under_solution_eq (hbs : ∀ b ∈ bs, b.2.NoVars) (hθ : Solves θ bs) {θ' : Nat → Mono}
    (hkept : ∀ i ∈ keptHoles env bs, θ' i = θ i) : env.under (Ty.solution bs θ') = env.under θ := by
  funext x τ
  refine propext (exists_congr fun s => and_congr_right fun hs => exists_congr fun ρ => ?_)
  rw [Ty.denote_solution hbs, ← Ty.denote_applyBindings hbs hθ]
  rw [Ty.denote_congr (fun i hi => hkept i ?_) fun _ _ => rfl]
  exact List.mem_flatMap.2 ⟨_, Table.mem_of_get? hs, hi⟩

/-- What a type stands for with new variables has every instance of its schema as an instance. -/
theorem renew_instance (hshort : ∀ i, (θ i).Short n) (hbs : ∀ b ∈ bs, b.2.NoVars) (ht : t ∈ ts) (htvars : t.NoVars)
    (ρ : String → Mono) :
    Poly.Instance ⟨(generalHoles env bs ts).map fun i => longName (n + i),
        (Ty.applyBindings bs t).under (renew θ (generalHoles env bs ts) n)⟩
      ((schemaOf env bs t).type.denote θ ρ) := by
  have hnoVars := htvars.applyBindings hbs
  obtain ⟨θ', hkept, heq⟩ := denote_generalizeOver θ ρ (keptHoles env bs) (Ty.applyBindings bs t)
  -- the length of a new variable tells the hole
  refine ⟨fun x => if x ∈ (generalHoles env bs ts).map (fun i => longName (n + i)) then θ' (x.length - n) else .var x,
    fun x hx => if_neg hx, ?_⟩
  rw [schemaOf, heq, hnoVars.denote_eq, hnoVars.under_subst]
  refine Ty.denote_congr (fun i hi => ?_) fun _ _ => rfl
  by_cases hgeneral : i ∈ generalHoles env bs ts
  · have hname : longName (n + i) ∈ (generalHoles env bs ts).map fun i => longName (n + i) :=
      List.mem_map_of_mem hgeneral
    rw [renew, if_pos hgeneral, Mono.subst, if_pos hname, length_longName, Nat.add_sub_cancel_left]
  · have hmem : i ∈ keptHoles env bs := by
      by_contra hnot
      exact hgeneral (List.mem_filter.2 ⟨List.mem_flatMap.2 ⟨t, ht, hi⟩, decide_eq_true hnot⟩)
    rw [renew, if_neg hgeneral, hkept i hmem, (hshort i).subst_eq fun x hx => if_neg fun hlong => ?_]
    obtain ⟨j, -, rfl⟩ := List.mem_map.1 hlong
    rw [length_longName] at hx
    omega

end

/-- There is a solution with new variables for the holes that are generalised, so that all instances of the schemas
are instances of what types stand for under that solution. -/
theorem Accounts.exists_general (h : Accounts Γ θ env) (hst : Solved st.bindings) (hθ : Solves θ st.bindings)
    {ts : List Ty} (hts : ∀ t ∈ ts, t.NoVars) :
    ∃ θ' vars, Solves θ' st.bindings ∧ Accounts Γ θ' env ∧ (∀ x ∈ vars, ¬ Γ.Free x) ∧
      ∀ t ∈ ts, ∀ ρ, Poly.Instance ⟨vars, t.under θ'⟩ ((schemaOf env st.bindings t).type.denote θ ρ) := by
  obtain ⟨n, hshort, hfree⟩ := h.short
  have hbs := hst.noVars
  have hunder : env.under (Ty.solution st.bindings (renew θ (generalHoles env st.bindings ts) n)) = env.under θ :=
    under_solution_eq hbs hθ fun i hi => renew_of_kept hi
  obtain ⟨m, hm⟩ := exists_short_renew hshort (generalHoles env st.bindings ts)
  refine ⟨_, (generalHoles env st.bindings ts).map fun i => longName (n + i), Ty.solves_solution hst _,
    ⟨⟨max n m, fun i => ?_, fun x hx => ?_⟩, hunder ▸ h.scope⟩, fun x hx hxfree => ?_, fun t ht ρ => ?_⟩
  · have hhole : (Ty.applyBindings st.bindings (.hole i)).NoVars :=
      NoVars.applyBindings (fun _ => Ty.mem_varNames_hole) hbs
    exact hhole.short fun j => (hm j).mono (Nat.le_max_right _ _)
  · exact Nat.lt_of_lt_of_le (hfree x hx) (Nat.le_max_left _ _)
  · obtain ⟨i, -, rfl⟩ := List.mem_map.1 hx
    have hlength := hfree _ hxfree
    rw [length_longName] at hlength
    omega
  · rw [under, Ty.denote_solution hbs]
    exact renew_instance hshort hbs ht (hts t ht) ρ

/-! ## Declarations -/

/-- The expression has the type by any assumptions that account for the environment, if all its recursive groups
bind names. -/
def Derivable (env : TypeEnv) (θ : Nat → Mono) (e : Expr) (τ : Mono) : Prop :=
  e.AllParts (fun _ => True) Group.BindsNames → ∀ Γ, Accounts Γ θ env → Derives env.aliases Γ e τ

theorem single_derives {span dspan : Span} {p : Pattern} {e : Expr} {t : Ty} (hst : Solved st.bindings)
    (ht : t.NoVars) (htakes : ∀ θ, Solves θ st.bindings → ∃ typings, p.Takes env.aliases (t.under θ) typings)
    (htyped : ∀ θ, Solves θ st.bindings → Derivable env θ e (t.under θ))
    (he : e.AllParts (fun _ => True) Group.BindsNames) (hΓ : Accounts Γ θ env) (hθ : Solves θ st.bindings) :
    ∃ Δ, DerivesGroup env.aliases Γ (.single span (.mk dspan p e)) Δ ∧
      Accounts Δ θ (bindPattern env p (schemaOf env st.bindings t)) := by
  obtain ⟨θ', vars, hθ', hΓ', hvars, hinst⟩ := hΓ.exists_general hst hθ (List.forall_mem_singleton.2 ht)
  obtain ⟨bs, hbs⟩ := htakes θ' hθ'
  obtain ⟨parts, hparts, hfunctional⟩ := distribute_parts p _ (takes_schemaOf hst ht htakes)
  refine ⟨_, .single (htyped θ' hθ' he Γ hΓ') hbs hvars, hΓ.bind ?_ fun x τ hτ => ?_⟩
  · obtain ⟨n, hn, -⟩ := hΓ'.short
    exact ⟨n, List.forall_mem_map.2 fun b hb => (ht.short hn).part (hbs.part b hb)⟩
  · obtain ⟨s, hs, ρ, rfl⟩ := hτ
    obtain ⟨ρ', hρ', heq⟩ := hinst t (List.mem_singleton_self t) ρ
    have hpart := get?_parts hfunctional hbs heq x
    rw [bindPattern_eq hparts, TypeEnv.get?_bindAll] at hs
    rw [get?_quantify]
    cases hget : Table.get? parts.reverse x with
    | none =>
      rw [hget, Option.map_none, Option.map_eq_none_iff] at hpart
      rw [hget, Option.none_or] at hs
      exact .inr ⟨by rw [hpart, Option.map_none], s, hs, ρ, rfl⟩
    | some part =>
      rw [hget] at hs hpart
      cases hs
      obtain ⟨υ, hυ, hsubst⟩ := Option.map_eq_some_iff.1 hpart
      exact .inl ⟨⟨vars, υ⟩, by rw [hυ, Option.map_some], ρ', hρ', hsubst.symm⟩

theorem derivesMembers_of_forall₂ {ds : List Decl} (hΓ : Accounts Γ θ env)
    (htakes : MembersTake env.aliases ds (typingsUnder θ binds)) (hnames : ∀ d ∈ ds, d.pattern.isName)
    (hds : Decl.AllPartsList (fun _ => True) Group.BindsNames ds)
    (h : List.Forall₂ (fun d b => Derivable env θ d.body (b.2.under θ)) ds binds) :
    DerivesMembers env.aliases Γ ds (typingsUnder θ binds) := by
  induction h with
  | nil => exact .nil
  | @cons d b _ _ head _ ih =>
    obtain ⟨span, p, e⟩ := d
    obtain ⟨hname, ⟨_, hp⟩, hrest⟩ := htakes
    obtain ⟨hisName, hnames⟩ := List.forall_mem_cons.1 hnames
    obtain rfl := hp.eq_of_isName hisName hname
    exact .cons hp (head hds.1 Γ hΓ) (ih hrest hnames hds.2)

theorem recursive_derives {span : Span} {ds : List Decl} (hst : Solved st.bindings) (hbinds : ∀ b ∈ binds, b.2.NoVars)
    (htakes : ∀ θ, Solves θ st.bindings → MembersTake env.aliases ds (typingsUnder θ binds))
    (htyped : ∀ θ, Solves θ st.bindings →
      List.Forall₂ (fun d b => Derivable (bindMono env binds) θ d.body (b.2.under θ)) ds binds)
    (hnames : ∀ d ∈ ds, d.pattern.isName) (hds : Decl.AllPartsList (fun _ => True) Group.BindsNames ds)
    (hΓ : Accounts Γ θ env) (hθ : Solves θ st.bindings) : ∃ Δ, DerivesGroup env.aliases Γ (.recursive span ds) Δ ∧
      Accounts Δ θ (env.bindAll (binds.map fun b => (b.1, schemaOf env st.bindings b.2))) := by
  obtain ⟨θ', vars, hθ', hΓ', hvars, hinst⟩ := hΓ.exists_general hst hθ (List.forall_mem_map.2 hbinds)
  have htypings : (binds.map fun b => (b.1, Poly.mk vars (b.2.under θ'))).map (fun m => (m.1, m.2.type)) =
      typingsUnder θ' binds := List.map_map
  have hmembers := derivesMembers_of_forall₂ (hΓ'.bindMono hbinds) (aliases_bindMono env binds ▸ htakes θ' hθ') hnames
    hds (htyped θ' hθ')
  rw [aliases_bindMono, ← htypings] at hmembers
  refine ⟨_, .recursive hmembers (List.forall_mem_map.2 fun _ _ => hvars), hΓ.bind ?_ fun x τ hτ => ?_⟩
  · obtain ⟨n, hn, -⟩ := hΓ'.short
    exact ⟨n, List.forall_mem_map.2 fun b hb => (hbinds b hb).short hn⟩
  · obtain ⟨s, hs, ρ, rfl⟩ := hτ
    rw [get?_bindAll_map] at hs
    rw [← List.map_reverse, Table.get?_map fun t => Poly.mk vars (under θ' t)]
    cases hget : Table.get? binds.reverse x with
    | none =>
      rw [hget, Option.map_none, Option.none_or] at hs
      exact .inr ⟨rfl, s, hs, ρ, rfl⟩
    | some t =>
      rw [hget] at hs
      cases hs
      exact .inl ⟨_, rfl, hinst t (List.mem_map_of_mem (List.mem_reverse.1 (Table.mem_of_get? hget))) ρ⟩

theorem GroupFound.derives {g : Group} {ss : List Schema} {env' : TypeEnv} (hst : Solved st.bindings)
    (h : GroupFound Derivable env st.bindings g ss env') (hg : g.AllParts (fun _ => True) Group.BindsNames)
    (hΓ : Accounts Γ θ env) (hθ : Solves θ st.bindings) :
    ∃ Δ, DerivesGroup env.aliases Γ g Δ ∧ Accounts Δ θ env' := by
  cases h with
  | single noVars takes typed => exact single_derives hst noVars takes typed hg.2 hΓ hθ
  | recursive noVars takes typed => exact recursive_derives hst noVars takes typed hg.1 hg.2 hΓ hθ

/-! ## Expressions -/

theorem derivesAll_of_forall₂ {es : List Expr} {τs : List Mono} (hΓ : Accounts Γ θ env)
    (hes : Expr.AllPartsList (fun _ => True) Group.BindsNames es) (h : List.Forall₂ (Derivable env θ) es τs) :
    DerivesAll env.aliases Γ es τs := by
  induction h with
  | nil => exact .nil
  | cons head _ ih => exact .cons (head hes.1 Γ hΓ) (ih hes.2)

theorem derivesFields_of_forall₂ {fields : List (String × Expr)} {bs : Typings} (hΓ : Accounts Γ θ env)
    (hfields : Expr.AllPartsFields (fun _ => True) Group.BindsNames fields)
    (h : List.Forall₂ (fun f b => f.1 = b.1 ∧ Derivable env θ f.2 b.2) fields bs) :
    DerivesFields env.aliases Γ fields bs := by
  induction h with
  | nil => exact .nil
  | @cons f b _ _ head _ ih =>
    obtain ⟨name, e⟩ := f
    obtain ⟨_, τ⟩ := b
    obtain ⟨rfl, htyped⟩ := head
    exact .cons (htyped hfields.1 Γ hΓ) (ih hfields.2)

theorem derives_elems {es : List Expr} {τ : Mono} (hΓ : Accounts Γ θ env)
    (hes : Expr.AllPartsList (fun _ => True) Group.BindsNames es) (h : ∀ e ∈ es, Derivable env θ e τ) :
    ∀ e ∈ es, Derives env.aliases Γ e τ := by
  induction es with
  | nil => exact List.forall_mem_nil _
  | cons e es ih =>
    obtain ⟨hhead, htail⟩ := List.forall_mem_cons.1 h
    exact List.forall_mem_cons.2 ⟨hhead hes.1 Γ hΓ, ih hes.2 htail⟩

/-- The declarative rules. -/
def derivable : Judgement where
  Types := Derivable
  Runs env θ c body τ := Stmt.AllPartsList (fun _ => True) Group.BindsNames body → ∀ Γ, Accounts Γ θ env →
    DerivesBody env.aliases Γ c body τ
  bool _ _ _ := .bool
  int _ _ _ := .int
  string _ _ _ := .string
  code _ _ _ := .code
  termType _ _ _ := .termType
  array elems he _ hΓ := .array (derives_elems hΓ he.2 elems)
  tuple elems he _ hΓ := .tuple (derivesAll_of_forall₂ hΓ he.2 elems)
  record distinct typed he _ hΓ := .record distinct (derivesFields_of_forall₂ hΓ he.2 typed)
  index array index he Γ hΓ := .index (array he.2.1 Γ hΓ) (index he.2.2 Γ hΓ)
  field record has he Γ hΓ := .field (record he.2 Γ hΓ) has
  proj tuple has he Γ hΓ := .proj (tuple he.2 Γ hΓ) has
  var hs ρ _ _ hΓ := by
    obtain ⟨σ, hget, hinst⟩ := hΓ.scope _ _ ⟨_, hs, ρ, rfl⟩
    exact .var hget hinst
  lam hbinds param body he Γ hΓ := .lam param (aliases_bindMono _ _ ▸ body he.2 _ (hΓ.bindMono hbinds))
  app fn arg he Γ hΓ := .app (fn he.2.1 Γ hΓ) (arg he.2.2 Γ hΓ)
  letIn hst hg hθ body he Γ hΓ := by
    obtain ⟨Δ, hgroup, hΔ⟩ := hg.derives hst he.2.1 hΓ hθ
    exact .letIn hgroup (hg.aliases_eq ▸ body he.2.2 Δ hΔ)
  typed written inner he Γ hΓ := .typed written (inner he.2 Γ hΓ)
  ite test yes no he Γ hΓ := .ite (test he.2.1 Γ hΓ) (yes he.2.2.1 Γ hΓ) (no he.2.2.2 Γ hΓ)
  block stmts he Γ hΓ := .block (stmts he.2 Γ hΓ)
  paren inner he Γ hΓ := .paren (inner he.2 Γ hΓ)
  last action result ignored hbody Γ hΓ := .last (action hbody.1 Γ hΓ) result ignored
  bind hbinds action result next hbody Γ hΓ :=
    .bind (action hbody.1 Γ hΓ) result (aliases_bindMono _ _ ▸ next hbody.2 _ (hΓ.bindMono hbinds))
  define hst hg hθ next hbody Γ hΓ := by
    obtain ⟨Δ, hgroup, hΔ⟩ := hg.derives hst hbody.1 hΓ hθ
    exact .define hgroup (hg.aliases_eq ▸ next hbody.2 Δ hΔ)
  typedef written next hbody Γ hΓ := .typedef written (next hbody.2 Γ ⟨hΓ.short, hΓ.scope⟩)
  codeStmt next hbody Γ hΓ := .code (next hbody.2 Γ hΓ)
  importTerms next hbody Γ hΓ := .importTerms (next hbody.2 Γ hΓ)

end Check

/-! ## Checks with a state of their own -/

section
variable {env : TypeEnv} {e : Expr} {s : Schema} {st : CheckState} {θ : Nat → Mono} {n : Nat}

/-- The schemas of a session account for it under any monotypes. -/
theorem TypeEnv.Complete.accounts (henv : env.Complete) (hθ : ∀ i, (θ i).Short n) :
    Check.Accounts env.assumptions θ env := by
  have hget : ∀ x, Table.get? env.assumptions x = (Table.get? env.types x).map fun s => Poly.mk s.vars (s.at .var) :=
    Table.get?_map (fun s : Schema => Poly.mk s.vars (s.at .var)) env.types
  refine ⟨⟨n, hθ, fun x hx => ?_⟩, fun x τ hτ => ?_⟩
  · -- a complete schema has no free variables
    obtain ⟨y, σ, hσ, hoccurs, hvars⟩ := hx
    rw [hget] at hσ
    obtain ⟨s, hs, rfl⟩ := Option.map_eq_some_iff.1 hσ
    obtain ⟨i, -, hi⟩ | ⟨z, hz, hx⟩ := Ty.occurs_denote hoccurs
    · exact absurd hi Mono.not_occurs_unit
    · obtain rfl := Mono.occurs_var_iff.1 hx
      exact absurd ((henv.types _ (Table.mem_of_get? hs)).closed _ hz) hvars
  · obtain ⟨s, hs, ρ, rfl⟩ := hτ
    have hcomplete := henv.types _ (Table.mem_of_get? hs)
    refine ⟨⟨s.vars, s.at .var⟩, by rw [hget, hs, Option.map_some], fun x => if x ∈ s.vars then ρ x else .var x,
      fun x hx => if_neg hx, ?_⟩
    rw [hcomplete.denote_eq, Schema.at, Schema.at, Ty.denote_subst]
    exact Ty.denote_congr (fun _ _ => rfl) fun x hx => (if_pos (hcomplete.closed x hx)).symm

/-- An instance by types has finitely many variables. -/
theorem exists_short_at (s : Schema) (ρ : String → Ty) : ∃ n, (s.at fun x => (ρ x).under fun _ => .unit).Short n := by
  obtain ⟨n, hn⟩ := exists_length_lt (s.type.varNames.flatMap fun x => (ρ x).varNames)
  refine ⟨n, fun x hx => ?_⟩
  obtain ⟨i, -, hi⟩ | ⟨y, hy, hx⟩ := Ty.occurs_denote hx
  · exact absurd hi Mono.not_occurs_unit
  · obtain ⟨i, -, hi⟩ | ⟨z, hz, hx⟩ := Ty.occurs_denote hx
    · exact absurd hi Mono.not_occurs_unit
    · obtain rfl := Mono.occurs_var_iff.1 hx
      exact hn _ (List.mem_flatMap.2 ⟨y, hy, hz⟩)

/-- Every instance of the schema of an expression, with any types in the places of its variables, is derivable, if
the members of its recursive groups are names. -/
theorem checkExpr_derives (henv : env.Complete) (he : e.AllTypes Ground)
    (hnames : e.AllParts (fun _ => True) Group.BindsNames) (h : checkExpr env e .initial = .ok s st)
    (ρ : String → Ty) : Derives env.aliases env.assumptions e (s.at fun x => (ρ x).under fun _ => .unit) := by
  have hyields : Check.Yields (checkExpr env e) .initial fun s _ => ∀ ρ : String → Ty,
      Derives env.aliases env.assumptions e (s.at fun x => (ρ x).under fun _ => .unit) := by
    unfold checkExpr
    rw [Check.yields_bind]
    refine Check.Yields.imp (Check.inferExpr_reads Check.derivable e henv.closed he solved_initial) ?_
    rintro t st1 ⟨hr, ht, hderives⟩
    refine (Check.generalize_yields hr.solved ht).imp ?_
    rintro s _ ⟨rfl, hs⟩ ρ
    obtain ⟨n, hshort⟩ := exists_short_at s ρ
    obtain ⟨θ, hθ, heq, -⟩ := hs.instances (fun _ => .unit) fun x => (ρ x).under fun _ => .unit
    rw [Schema.at, heq] at hshort ⊢
    obtain ⟨θ', hθ', hshort', heq'⟩ := exists_short_solution hr.solved.noVars ht hθ hshort
    rw [← heq']
    exact hderives θ' hθ' hnames _ (henv.accounts hshort')
  exact hyields.of_ok h ρ

/-- `let rec (f) = \x -> f x in f`: nothing is known of argument and result. -/
def endlessScript : Expr :=
  let at1 := Span.point "script" 1 1
  .letIn at1
    (.recursive at1 [.mk at1 (.paren at1 (.var at1 "f" none) none)
      (.lam at1 (.var at1 "x" none) (.app at1 (.var at1 "f") (.var at1 "x")))])
    (.var at1 "f")

theorem endlessScript_derives :
    (TypeEnv.mk [] []).Complete ∧ endlessScript.AllTypes Ground ∧
      endlessScript.AllParts (fun _ => True) Group.BindsNames ∧
      (∃ st, checkExpr ⟨[], []⟩ endlessScript .initial = .ok ⟨["a", "b"], .fn (.var "a") (.var "b")⟩ st) ∧
      Derives [] [] endlessScript (.fn .int (.list (.var "c"))) := by
  have henv : (TypeEnv.mk [] []).Complete := ⟨List.forall_mem_nil _, List.forall_mem_nil _⟩
  have htypes : endlessScript.AllTypes Ground := by
    simp [endlessScript, Expr.AllTypes, Group.AllTypes, Decl.AllTypesList, Decl.AllTypes, Pattern.AllTypes]
  have hnames : endlessScript.AllParts (fun _ => True) Group.BindsNames := by
    simp [endlessScript, Expr.AllParts, Group.AllParts, Decl.AllPartsList, Decl.AllParts, Group.BindsNames,
      Decl.pattern, Pattern.isName]
  obtain ⟨st, hcheck⟩ : ∃ st, checkExpr ⟨[], []⟩ endlessScript .initial =
      .ok ⟨["a", "b"], .fn (.var "a") (.var "b")⟩ st := ⟨_, rfl⟩
  refine ⟨henv, htypes, hnames, ⟨st, hcheck⟩, ?_⟩
  exact checkExpr_derives henv htypes hnames hcheck fun x => if x = "a" then .int else .list (.var "c")

/-- `let rec ((f, _)) = (1, 2) in f` -/
def recursivePair : Expr :=
  let at1 := Span.point "script" 1 1
  .letIn at1
    (.recursive at1 [.mk at1 (.paren at1 (.tuple at1 [.var at1 "f" none, .wildcard at1 none] none) none)
      (.tuple at1 [.int at1 1, .int at1 2])])
    (.var at1 "f")

/-- A pair in parentheses as the member of a recursive group: its name has the type of the whole pair, which is no
type that the name can have. -/
theorem recursivePair_underivable :
    (∃ st, checkExpr ⟨[], []⟩ recursivePair .initial = .ok ⟨[], .tuple [.int, .int]⟩ st) ∧
      ¬ ∃ τ, Derives [] [] recursivePair τ := by
  refine ⟨⟨_, rfl⟩, ?_⟩
  rintro ⟨τ, h⟩
  cases h with
  | letIn group body =>
    cases group with
    | @recursive _ _ _ _ members typed generalized =>
      generalize members.map (fun m => (m.1, m.2.type)) = bs at typed
      cases typed with
      | cons takes _ _ =>
        cases takes with
        | paren _ inner => exact absurd inner.not_isTuple Bool.noConfusion

end

end VeriScript
