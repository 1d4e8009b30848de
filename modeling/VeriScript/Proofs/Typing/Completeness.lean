import VeriScript.Proofs.Script.Parts
import VeriScript.Proofs.Typing.Extension
import VeriScript.Proofs.Typing.Weakening

/-!
# Inference finds every type

* `Assumptions.Within` — every instance of the assumptions is a type in a scope, with monotypes for the variables
  that are free in them.
* `Check.Setting` — inference stands in an environment whose scope has all the instances of assumptions.
* `Check.inferExpr_complete`, `Check.inferGroup_complete` — what is derivable is found, under the monotypes that go
  along with inference.
* `checkExpr_complete` — the schema of an expression has every type of the expression as an instance.
-/

namespace VeriScript

open Ty (NoVars Solves Solved under Ground)
open TypeEnv (typingsUnder)

/-! ## Assumptions and scopes -/

namespace Assumptions

variable {Γ : Assumptions} {ρ ρ' : String → Mono} {Δ Δ' : Scope} {x : String}

/-- Every instance of the assumptions is a type in the scope; the variables that are free in them stand for given
monotypes. -/
def Within (Γ : Assumptions) (ρ : String → Mono) (Δ : Scope) : Prop :=
  ∀ x σ, Table.get? Γ x = some σ → ∀ ρ' : String → Mono, (∀ y, y ∉ σ.vars → ρ' y = ρ y) → Δ x (σ.type.subst ρ')

theorem Within.of_agree (h : Γ.Within ρ Δ) (hagree : ∀ y, Γ.Free y → ρ' y = ρ y) : Γ.Within ρ' Δ := by
  intro x σ hx ρ1 hρ1
  have hsame : σ.type.subst ρ1 = σ.type.subst fun y => if y ∈ σ.vars then ρ1 y else ρ y := by
    refine Mono.subst_congr fun y hy => ?_
    by_cases hvars : y ∈ σ.vars
    · rw [if_pos hvars]
    · rw [if_neg hvars, hρ1 y hvars, hagree y ⟨x, σ, hx, hy, hvars⟩]
  rw [hsame]
  exact h x σ hx _ fun y hy => if_neg hy

/-- New assumptions are within a scope that has their instances and the types that other names had. -/
theorem Within.bind (h : Γ.Within ρ Δ) {entries : List (String × Poly)}
    (hnew : ∀ x σ, Table.get? entries.reverse x = some σ → ∀ ρ' : String → Mono, (∀ y, y ∉ σ.vars → ρ' y = ρ y) →
      Δ' x (σ.type.subst ρ'))
    (hold : ∀ x τ, Table.get? entries.reverse x = none → Δ x τ → Δ' x τ) : (Γ.bind entries).Within ρ Δ' := by
  intro x σ hx ρ' hρ'
  rw [get?_bind] at hx
  cases hentry : Table.get? entries.reverse x with
  | none =>
    rw [hentry, Option.none_or] at hx
    exact hold x _ hentry (h x σ hx ρ' hρ')
  | some σ' =>
    rw [hentry] at hx
    cases hx
    exact hnew x σ hentry ρ' hρ'

/-- An instance of an assumption, with the given monotypes for the variables that are left. -/
theorem Within.instance (h : Γ.Within ρ Δ) {σ : Poly} {τ : Mono} (hx : Table.get? Γ x = some σ)
    (hτ : σ.Instance τ) : Δ x (τ.subst ρ) := by
  obtain ⟨ρ0, hρ0, rfl⟩ := hτ
  rw [Mono.subst_subst]
  exact h x σ hx _ fun y hy => by rw [hρ0 y hy, Mono.subst]

theorem Within.bind_mono (h : Γ.Within ρ Δ) (bs : Typings) :
    (Γ.bind (quantify [] bs)).Within ρ (Δ.bind (substTypings ρ bs)) := by
  refine h.bind (fun x σ hx ρ' hρ' => ?_) fun x τ hx hτ => ?_
  · obtain rfl : ρ' = ρ := funext fun y => hρ' y (by
      rw [get?_quantify] at hx
      obtain ⟨τ, -, rfl⟩ := Option.map_eq_some_iff.1 hx
      exact List.not_mem_nil)
    rw [get?_quantify] at hx
    obtain ⟨τ, hτ, rfl⟩ := Option.map_eq_some_iff.1 hx
    simp [Scope.bind, get?_substTypings, hτ]
  · rw [get?_quantify, Option.map_eq_none_iff] at hx
    simpa [Scope.bind, get?_substTypings, hx] using hτ

end Assumptions

namespace Check

/-- Inference stands in an environment whose scope has all the instances of the assumptions. -/
structure Setting (Γ : Assumptions) (ρ : String → Mono) (env : TypeEnv) (st : CheckState) (θ : Nat → Mono) :
    Prop where
  live : st.Live Solved θ
  ready : env.Ready st.nextHole
  within : Γ.Within ρ (env.under θ)

variable {Γ Δ : Assumptions} {ρ ρ' : String → Mono} {env : TypeEnv} {st st' : CheckState} {θ θ' : Nat → Mono}

theorem Setting.after (h : Setting Γ ρ env st θ) (hl : st.Leads Solved θ st' θ') : Setting Γ ρ env st' θ' :=
  ⟨hl.live, h.ready.mono hl.le, h.ready.under_eq hl.agree ▸ h.within⟩

theorem Setting.of_agree (h : Setting Γ ρ env st θ) (hagree : ∀ y, Γ.Free y → ρ' y = ρ y) : Setting Γ ρ' env st θ :=
  ⟨h.live, h.ready, h.within.of_agree hagree⟩

theorem Setting.bindMono (h : Setting Γ ρ env st θ) {bs : Typings} {binds : List (String × Ty)}
    (hfit : ∀ b ∈ binds, b.2.Fit st.nextHole) (hbinds : typingsUnder θ binds = substTypings ρ bs) :
    Setting (Γ.bind (quantify [] bs)) ρ (bindMono env binds) st θ := by
  have hnoVars : ∀ b ∈ binds, b.2.NoVars := fun b hb => (hfit b hb).noVars
  have hbelow := (TypeEnv.below_iff.1 h.ready.below).bindMono fun b hb => (hfit b hb).below
  refine ⟨h.live, ⟨h.ready.closed.bindMono hnoVars, TypeEnv.below_iff.2 hbelow⟩, ?_⟩
  rw [TypeEnv.under_bindMono hnoVars, hbinds]
  exact h.within.bind_mono bs

theorem Setting.bindAlias (h : Setting Γ ρ env st θ) {t u : Ty} (ht : t.Plain) (hu : t.resolve env.aliases = .ok u)
    (name : String) : Setting Γ ρ (env.bindAlias name u) st θ := by
  have hground : u.Ground := resolve_ground h.ready.closed.aliases ht.ground hu
  have hsolid : u.Solid List.Nodup := resolve_every h.ready.below.aliases ht.solid hu
  refine ⟨h.live, ⟨h.ready.closed.bindAlias hground, ?_⟩, h.within⟩
  exact TypeEnv.below_iff.2 ((TypeEnv.below_iff.1 h.ready.below).bindAlias hsolid)

theorem TypeFound.con {name : String} {ts : List Ty} {τs : List Mono}
    (h : List.Forall₂ (fun τ t => TypeFound τ t st θ) τs ts) : TypeFound (.con name τs) (.con name ts) st θ := by
  have hparts : (∀ t ∈ ts, t.Fit st.nextHole) ∧ ts.map (under θ) = τs := by
    induction h with
    | nil => exact ⟨List.forall_mem_nil _, rfl⟩
    | cons ht _ ih => exact ⟨List.forall_mem_cons.2 ⟨ht.fit, ih.1⟩, congrArg₂ _ ht.type ih.2⟩
  exact ⟨Ty.fit_con hparts.1, by rw [under_con, hparts.2]⟩

section
variable {β : Type} {S : β → CheckState → (Nat → Mono) → Prop} {k : Unit → Check β}

theorem Setting.visited {kind : String} (h : Setting Γ ρ env st θ)
    (hk : ∀ st' θ', Setting Γ ρ env st' θ' → Achieves Solved (k ()) st' θ' S) :
    Achieves Solved (visit kind >>= k) st θ S :=
  (visit_achieves h.live kind).bind fun _ _ _ hl _ => hk _ _ (h.after hl)

theorem Achieves.unified {τ : Mono} {t u : Ty} {span : Option Span} (hst : st.Live Solved θ) (ht : TypeFound τ t st θ)
    (hu : TypeFound τ u st θ) (hk : ∀ st', st.Leads Solved θ st' θ → Achieves Solved (k ()) st' θ S) :
    Achieves Solved (unify t u span >>= k) st θ S := by
  refine (unify_achieves hst ht.fit.below hu.fit.below (ht.type.trans hu.type.symm)
    (hst.known.unify ht.fit.noVars hu.fit.noVars)).bind ?_
  rintro ⟨⟩ st' _ hl rfl
  exact hk st' hl

end

/-! ## Declarations -/

/-- Two extensions of the same monotypes agree on the environment. -/
theorem agree_on_env {st1 st2 : CheckState} {θ1 θ2 : Nat → Mono} (henv : env.Ready st.nextHole)
    (h1 : st.Leads Solved θ st1 θ1) (h2 : st.Leads Solved θ st2 θ2) :
    ∀ e ∈ env.types, ∀ i ∈ e.2.type.holes, θ1 i = θ2 i := by
  intro e he i hi
  have hlt := (henv.below.types e he).mem_holes i hi
  rw [h1.agree i hlt, h2.agree i hlt]

/-- Whatever a type stands for under an extension of the same monotypes is an instance of its schema. -/
theorem generalize_instance {t : Ty} {s : Schema} {st1 st2 : CheckState} {θ1 θ2 : Nat → Mono}
    (hgeneralize : generalize env t st1 = .ok s st2) (henv : env.Ready st.nextHole) (h1 : st.Leads Solved θ st1 θ1)
    (h2 : st.Leads Solved θ st1 θ2) : ∃ ρ, s.type.denote θ1 ρ = t.under θ2 :=
  generalize_complete hgeneralize (fun b hb => (h1.live.sound.bound b hb).2.distinct)
    (fun e he => (henv.below.types e he).distinct) h2.live.solves h1.live.solves (agree_on_env henv h2 h1)

/-- What is found for a declaration, with other monotypes for the variables that are not free in the
assumptions, is an instance of its schema. -/
theorem single_achieves (h : Setting Γ ρ env st θ) {span dspan : Span} {p : Pattern} {e : Expr}
    {vars : List String} {τ : Mono} {bs : Typings} (hp : p.AllTypes Ty.Plain) (he : e.AllTypes Ty.Plain)
    (takes : p.Takes env.aliases τ bs) (generalized : ∀ x ∈ vars, ¬ Γ.Free x)
    (hbound : ∀ ρ' : String → Mono, (∀ y, Γ.Free y → ρ' y = ρ y) →
      Achieves Solved (inferBound env (.mk dspan p e)) st θ (TypeFound (τ.subst ρ'))) :
    Achieves Solved (inferGroup env (.single span (.mk dspan p e))) st θ fun r st' θ' =>
      Setting (Γ.bind (quantify vars bs)) ρ r.2 st' θ' ∧ r.2.aliases = env.aliases := by
  obtain ⟨t, st1, θ1, hrun, hl, hfit, -⟩ := hbound ρ fun _ _ => rfl
  generalize hs : schemaOf env st1.bindings t = s
  have hgeneralize : generalize env t st1 = .ok s st1 := hs ▸ generalize_eq env st1 t
  have hclosed : ∀ x ∈ s.type.varNames, x ∈ s.vars := hs ▸ (generalizes_schemaOf hl.live.known hfit.noVars).closed
  have hbelow : s.type.Below List.Nodup st1.nextHole :=
    ((generalize_keeps hl.live.sound (h.ready.mono hl.le).below hfit.below).result s st1 hgeneralize).2
  have hgroup : inferGroup env (.single span (.mk dspan p e)) st = .ok ([s], bindPattern env p s) st1 := by
    simp only [inferGroup, inferDecl_eq, Bind.bind, EStateM.bind, hrun, Bool.false_eq_true, if_false, hgeneralize]
    rfl
  -- the pattern takes every instance of the schema, so that the schema is shared among its names
  have htakes : ∀ θ, Solves θ st1.bindings → ∃ bs, p.Takes env.aliases (t.under θ) bs := by
    have hground : (Decl.mk dspan p e).AllTypes Ground :=
      ⟨p.allTypes_imp (fun _ h => Ty.Plain.ground h) hp, e.allTypes_imp (fun _ h => Ty.Plain.ground h) he⟩
    have hfound := Yields.of_ok (inferBound_reads hasType _ h.ready.closed hground h.live.known) hrun
    exact fun θ hθ => (hfound.2.2 θ hθ).2
  obtain ⟨parts, hparts, hfunctional⟩ := distribute_parts p s (hs ▸ takes_schemaOf hl.live.known hfit.noVars htakes)
  have hinstance : ∀ ρ' : String → Mono, (∀ y, Γ.Free y → ρ' y = ρ y) → ∃ ρ'', ∀ x,
      (Table.get? bs.reverse x).map (Mono.subst ρ') =
        (Table.get? parts.reverse x).map fun part => part.type.denote θ1 ρ'' := by
    intro ρ' hρ'
    obtain ⟨t', st1', θ1', hrun', hl', -, hunder⟩ := hbound ρ' hρ'
    rw [hrun] at hrun'
    cases hrun'
    obtain ⟨ρ'', hρ''⟩ := generalize_instance hgeneralize h.ready hl hl'
    exact ⟨ρ'', get?_parts hfunctional takes (hρ''.trans hunder)⟩
  refine ⟨_, st1, θ1, hgroup, hl, ⟨hl.live, ⟨?_, ?_⟩, ?_⟩, aliases_bindPattern env p s⟩
  · exact bindPattern_closed h.ready.closed hclosed hparts
  · refine TypeEnv.below_iff.2 ((TypeEnv.below_iff.1 (h.ready.mono hl.le).below).bindPattern ?_ hbelow)
    exact fun _ => Ty.every_con.1
  · refine (h.after hl).within.bind (fun x σ hx ρ' hρ' => ?_) fun x υ hx hυ => ?_
    · rw [get?_quantify] at hx
      obtain ⟨υ, hυ, rfl⟩ := Option.map_eq_some_iff.1 hx
      obtain ⟨ρ'', hρ''⟩ := hinstance ρ' fun y hy => hρ' y fun hvars => generalized y hvars hy
      have hpart := hρ'' x
      rw [hυ, Option.map_some] at hpart
      obtain ⟨part, hget, heq⟩ := Option.map_eq_some_iff.1 hpart.symm
      refine ⟨part, ?_, ρ'', heq.symm⟩
      rw [bindPattern_eq hparts, TypeEnv.get?_bindAll, hget, Option.some_or]
    · rw [get?_quantify, Option.map_eq_none_iff] at hx
      obtain ⟨ρ'', hρ''⟩ := hinstance ρ fun _ _ => rfl
      have hpart := hρ'' x
      rw [hx, Option.map_none, eq_comm, Option.map_eq_none_iff] at hpart
      obtain ⟨s', hs', ρ1, rfl⟩ := hυ
      refine ⟨s', ?_, ρ1, rfl⟩
      rw [bindPattern_eq hparts, TypeEnv.get?_bindAll, hpart, Option.none_or, hs']

/-! ### Recursive groups -/

/-- What inference finds for the members of a group. -/
structure MembersFound (ρ : String → Mono) (bs : Typings) (binds : List (String × Ty)) (st : CheckState)
    (θ : Nat → Mono) : Prop where
  fit : ∀ b ∈ binds, b.2.Fit st.nextHole
  binds : typingsUnder θ binds = substTypings ρ bs

section
variable {bs : Typings} {binds : List (String × Ty)}

theorem MembersFound.after (h : MembersFound ρ bs binds st θ) (hl : st.Leads Solved θ st' θ') :
    MembersFound ρ bs binds st' θ' :=
  ⟨fun b hb => (h.fit b hb).mono hl.le, (typingsUnder_eq h.fit hl.agree).trans h.binds⟩

theorem MembersFound.cons {name : String} {τ : Mono} (h : MembersFound ρ ((name, τ) :: bs) binds st θ) :
    ∃ t binds', binds = (name, t) :: binds' ∧ TypeFound (τ.subst ρ) t st θ ∧ MembersFound ρ bs binds' st θ := by
  obtain ⟨hfit, hbinds⟩ := h
  cases binds with
  | nil => cases hbinds
  | cons b binds =>
    obtain ⟨hhead, htail⟩ := List.cons_eq_cons.1 hbinds
    obtain ⟨rfl, htype⟩ := Prod.mk.inj hhead
    obtain ⟨hb, hfit⟩ := List.forall_mem_cons.1 hfit
    exact ⟨b.2, binds, rfl, ⟨hb, htype⟩, hfit, htail⟩

theorem MembersFound.names_eq (h : MembersFound ρ bs binds st θ) : binds.map (·.1) = bs.map (·.1) := by
  have hnames := congrArg (List.map (·.1)) h.binds
  simp only [typingsUnder, substTypings, List.map_map] at hnames
  exact hnames

/-- Names and types make the list of names with types. -/
theorem MembersFound.unique {binds' : List (String × Ty)} (h : MembersFound ρ bs binds st θ)
    (h' : MembersFound ρ' bs binds' st' θ') (htypes : binds.map (·.2) = binds'.map (·.2)) : binds = binds' := by
  rw [← List.zip_unzip binds, ← List.zip_unzip binds', List.unzip_eq_map, List.unzip_eq_map]
  exact congrArg₂ _ (h.names_eq.trans h'.names_eq.symm) htypes

theorem MembersFound.get?_eq {members : List (String × Poly)}
    (h : MembersFound ρ (members.map fun m => (m.1, m.2.type)) binds st θ) (x : String) :
    (Table.get? binds.reverse x).map (under θ) = (Table.get? members.reverse x).map fun σ => σ.type.subst ρ := by
  have hget := congrArg (fun bs : Typings => Table.get? bs.reverse x) h.binds
  simp only [get?_substTypings] at hget
  rw [typingsUnder, ← List.map_reverse, Table.get?_map, ← List.map_reverse, Table.get?_map Poly.type] at hget
  rw [hget, Option.map_map]
  rfl

end

theorem inferMembers_complete (ρ : String → Mono) :
    ∀ (ds : List Decl) {bs : Typings} {inner : TypeEnv} {st : CheckState}
    {θ : Nat → Mono}, DerivesMembers env.aliases Γ ds bs → Decl.AllTypesList Ty.Plain ds → st.Live Solved θ →
    env.Ready st.nextHole → Achieves Solved (inferMembers env ds inner) st θ fun r st' θ' =>
      ∃ binds, r = (binds.map (·.2), bindMono inner binds) ∧ MembersFound ρ bs binds st' θ'
  | [], bs, inner, st, θ, h, _, hst, _ => by
    unfold inferMembers
    cases h
    exact achieves_pure hst ⟨[], rfl, List.forall_mem_nil _, rfl⟩
  | .mk span p e :: ds, _, inner, st, θ, h, hds, hst, henv => by
    cases h with
    | @cons _ _ _ _ _ _ name τ bs takes body rest =>
      have hname : p.names = [name] := takes.names_eq.symm
      unfold inferMembers
      simp only [Decl.pattern, hname, takes.not_isTuple, Bool.false_eq_true, if_false]
      refine (inferPattern_complete p (takes.subst ρ) hds.1.1 hst henv).bind fun r st1 θ1 hl1 hr => ?_
      refine (inferMembers_complete ρ ds rest hds.2 hl1.live (henv.mono hl1.le)).bind ?_
      rintro _ st2 θ2 hl2 ⟨binds, rfl, hfound⟩
      refine achieves_pure hl2.live ⟨(name, r.1) :: binds, rfl, ?_, ?_⟩
      · exact List.forall_mem_cons.2 ⟨hr.fit.mono hl2.le, hfound.fit⟩
      · exact congrArg₂ (fun τ bs => (name, τ) :: bs) ((hl2.under_eq hr.fit).trans hr.type) hfound.binds

theorem membersTake_of_derives {al : Aliases} : ∀ {ds : List Decl} {bs : Typings}, DerivesMembers al Γ ds bs →
    MembersTake al ds (substTypings ρ bs)
  | [], _, h => by
    cases h
    exact trivial
  | .mk _ _ _ :: _, _, h => by
    cases h with
    | cons takes body rest => exact ⟨takes.names_eq.symm, ⟨_, takes.subst ρ⟩, membersTake_of_derives rest⟩

/-- What is found for the members of a recursive group, with other monotypes for the variables that are not free
in the assumptions, are instances of their schemas. -/
theorem recursive_achieves (h : Setting Γ ρ env st θ) {span : Span} {ds : List Decl}
    {members : List (String × Poly)} {Γ' : Assumptions}
    (typed : DerivesMembers env.aliases Γ' ds (members.map fun m => (m.1, m.2.type)))
    (generalized : ∀ m ∈ members, ∀ x ∈ m.2.vars, ¬ Γ.Free x)
    (hbound : ∀ ρ' : String → Mono, (∀ y, Γ.Free y → ρ' y = ρ y) →
      Achieves Solved (inferMemberTypes env ds) st θ fun ts st' θ' =>
        ∃ binds, ts = binds.map (·.2) ∧ MembersFound ρ' (members.map fun m => (m.1, m.2.type)) binds st' θ') :
    Achieves Solved (inferGroup env (.recursive span ds)) st θ fun r st' θ' =>
      Setting (Γ.bind members) ρ r.2 st' θ' ∧ r.2.aliases = env.aliases := by
  obtain ⟨_, st1, θ1, hrun, hl, binds, rfl, hfound⟩ := hbound ρ fun _ _ => rfl
  generalize hschema : schemaOf env st1.bindings = schema
  have hgeneralize : ∀ t, generalize env t st1 = .ok (schema t) st1 := hschema ▸ generalize_eq env st1
  have hgroup : inferGroup env (.recursive span ds) st =
      .ok ((binds.map fun b => schema b.2), env.bindAll (binds.map fun b => (b.1, schema b.2))) st1 := by
    have htake : MembersTake env.aliases ds (typingsUnder θ1 binds) := hfound.binds ▸ membersTake_of_derives typed
    simp only [inferGroup_recursive_eq, Bind.bind, EStateM.bind, hrun, generalizeAll_eq, List.map_map, hschema]
    exact congrArg₂ _ (congrArg₂ _ rfl (foldl_bindMember schema htake env)) rfl
  have hschemas : ∀ b ∈ binds, Generalizes env st1.bindings b.2 (schema b.2) ∧
      (schema b.2).type.Below List.Nodup st1.nextHole := by
    intro b hb
    have hfit := hfound.fit b hb
    have hbelow := (h.ready.mono hl.le).below
    exact ⟨hschema ▸ generalizes_schemaOf hl.live.known hfit.noVars,
      ((generalize_keeps hl.live.sound hbelow hfit.below).result _ _ (hgeneralize b.2)).2⟩
  refine ⟨_, st1, θ1, hgroup, hl, ⟨hl.live, ⟨?_, ?_⟩, ?_⟩, TypeEnv.aliases_bindAll _ _⟩
  · exact h.ready.closed.bindAll (List.forall_mem_map.2 fun b hb => (hschemas b hb).1.closed)
  · refine TypeEnv.below_iff.2 ((TypeEnv.below_iff.1 (h.ready.mono hl.le).below).bindAll ?_)
    exact List.forall_mem_map.2 fun b hb => (hschemas b hb).2
  · refine (h.after hl).within.bind (fun x σ hx ρ' hρ' => ?_) fun x υ hx hυ => ?_
    · have hagree : ∀ y, Γ.Free y → ρ' y = ρ y := fun y hy => hρ' y fun hvars =>
        generalized _ (List.mem_reverse.1 (Table.mem_of_get? hx)) y hvars hy
      obtain ⟨_, _, θ1', hrun', hl', binds', hbinds, hfound'⟩ := hbound ρ' hagree
      rw [hrun] at hrun'
      cases hrun'
      obtain rfl := hfound.unique hfound' hbinds
      obtain ⟨t, ht, heq⟩ := Option.map_eq_some_iff.1 ((hfound'.get?_eq x).trans (by rw [hx, Option.map_some]))
      obtain ⟨ρ'', hρ''⟩ := generalize_instance (hgeneralize t) h.ready hl hl'
      refine ⟨schema t, ?_, ρ'', heq.symm.trans hρ''.symm⟩
      rw [get?_bindAll_map, ht, Option.map_some, Option.some_or]
    · have hnone := hfound.get?_eq x
      rw [hx, Option.map_none, Option.map_eq_none_iff] at hnone
      obtain ⟨s', hs', ρ1, rfl⟩ := hυ
      refine ⟨s', ?_, ρ1, rfl⟩
      rw [get?_bindAll_map, hnone, Option.map_none, Option.none_or, hs']

/-! ## Expressions and blocks -/

theorem DerivesBody.isEmpty_eq {al : Aliases} {c τ : Mono} {body : List Stmt} (h : DerivesBody al Γ c body τ) :
    body.isEmpty = false := by
  cases h <;> rfl

theorem DerivesBody.bind_cases {al : Aliases} {c τ : Mono} {span : Span} {p : Pattern} {e : Expr} {rest : List Stmt}
    (h : DerivesBody al Γ c (.bind span p e :: rest) τ) :
    ∃ υ bs, Derives al Γ e (.block c υ) ∧ p.Takes al υ bs ∧ (rest.isEmpty = true ∧ p.isWildcard = true ∧ υ = τ ∨
      rest.isEmpty = false ∧ DerivesBody al (Γ.bind (quantify [] bs)) c rest τ) := by
  cases h with
  | last action result ignored => exact ⟨_, _, action, result, .inl ⟨rfl, ignored, rfl⟩⟩
  | bind action result next => exact ⟨_, _, action, result, .inr ⟨rfl, next⟩⟩

mutual

theorem inferExpr_complete {Γ : Assumptions} {ρ : String → Mono} {env : TypeEnv} {τ : Mono} {st : CheckState}
    {θ : Nat → Mono} : ∀ e : Expr, Derives env.aliases Γ e τ → Setting Γ ρ env st θ → e.AllTypes Ty.Plain →
    e.LookupFree → Achieves Solved (inferExpr env e) st θ (TypeFound (τ.subst ρ))
  | .bool _ _, h, hs, _, _
  | .int _ _, h, hs, _, _
  | .string _ _, h, hs, _, _
  | .code _ _, h, hs, _, _
  | .termType _ _, h, hs, _, _ => by
    cases h
    unfold inferExpr
    exact hs.visited fun st1 θ1 hs1 => achieves_pure hs1.live (.con .nil)
  | .array _ es, h, hs, he, hparts => by
    cases h with
    | @array _ _ _ _ τ elems =>
      unfold inferExpr
      refine hs.visited fun st1 θ1 hs1 => ?_
      refine (fresh_found hs1.live (τ.subst ρ)).bind fun t st2 θ2 hl2 ht => ?_
      refine (inferElems_complete es elems (hs1.after hl2) ht he hparts.2).bind fun _ st3 θ3 hl3 _ => ?_
      exact achieves_pure hl3.live (.con (.cons (ht.after hl3) .nil))
  | .tuple _ es, h, hs, he, hparts => by
    cases h with
    | @tuple _ _ _ _ τs elems =>
      unfold inferExpr
      refine hs.visited fun st1 θ1 hs1 => ?_
      refine (inferExprs_complete es elems hs1 he hparts.2).bind fun ts st2 θ2 hl2 hts => ?_
      refine achieves_pure hl2.live ⟨Ty.fit_con hts.1, ?_⟩
      rw [under_tuple, hts.2]
      simp [Mono.subst]
  | .record span fields, h, hs, he, hparts => by
    cases h with
    | @record _ _ _ _ bs distinct typed =>
      unfold inferExpr
      refine hs.visited fun st1 θ1 hs1 => ?_
      rw [firstDuplicate_eq_none_of_nodup distinct]
      refine (inferFields_complete fields typed hs1 he hparts.2).bind fun ts st2 θ2 hl2 hts => ?_
      obtain ⟨hnames, hfit, htypes⟩ := hts
      refine achieves_pure hl2.live ⟨Ty.fit_record (hnames ▸ distinct) hfit, ?_⟩
      rw [under_record]
      simp only [Mono.subst, Mono.substOption_eq, Mono.record.injEq]
      funext name
      have hget := congrArg (Table.get? · name) htypes
      simp only [typingsUnder, substTypings, Table.get?_map] at hget
      exact hget
  | .index _ a i, h, hs, he, hparts => by
    cases h with
    | index array index =>
      unfold inferExpr
      refine hs.visited fun st1 θ1 hs1 => ?_
      refine (fresh_found hs1.live (τ.subst ρ)).bind fun t st2 θ2 hl2 ht => ?_
      have hs2 := hs1.after hl2
      refine (inferExpr_complete a array hs2 he.1 hparts.2.1).bind fun u st3 θ3 hl3 hu => ?_
      have helem := ht.after hl3
      refine .unified hl3.live (.con (.cons helem .nil)) hu fun st4 hl4 => ?_
      refine (inferExpr_complete i index ((hs2.after hl3).after hl4) he.2 hparts.2.2).bind fun v st5 θ5 hl5 hv => ?_
      refine .unified hl5.live (.con .nil) hv fun st6 hl6 => ?_
      exact achieves_pure hl6.live (((helem.after hl4).after hl5).after hl6)
  | .field _ _ _, h, hs, he, hparts => by
    cases hparts.1
  | .proj _ _ _, h, hs, he, hparts => by
    cases hparts.1
  | .var span name, h, hs, he, hparts => by
    cases h with
    | var scope inst =>
      unfold inferExpr
      refine hs.visited fun st1 θ1 hs1 => ?_
      obtain ⟨s, hget, ρ', heq⟩ := hs1.within.instance scope inst
      have hmem := Table.mem_of_get? hget
      simp only [hget, heq]
      exact instantiate_achieves hs1.live (hs1.ready.closed.types _ hmem) (hs1.ready.below.types _ hmem) ρ'
  | .lam _ p e, h, hs, he, hparts => by
    cases h with
    | lam param body =>
      unfold inferExpr
      refine hs.visited fun st1 θ1 hs1 => ?_
      refine (inferPattern_complete p (param.subst ρ) he.1 hs1.live hs1.ready).bind fun r st2 θ2 hl2 hr => ?_
      have hs2 := (hs1.after hl2).bindMono hr.fitBinds hr.binds
      refine (inferExpr_complete e (aliases_bindMono _ _ ▸ body) hs2 he.2 hparts.2).bind fun u st3 θ3 hl3 hu => ?_
      have hparam := hr.after hl3
      exact achieves_pure hl3.live (.con (.cons hparam (.cons hu .nil)))
  | .app span f a, h, hs, he, hparts => by
    cases h with
    | app fn arg =>
      unfold inferExpr
      refine hs.visited fun st1 θ1 hs1 => ?_
      refine (inferExpr_complete f fn hs1 he.1 hparts.2.1).bind fun t st2 θ2 hl2 ht => ?_
      refine (inferExpr_complete a arg (hs1.after hl2) he.2 hparts.2.2).bind fun u st3 θ3 hl3 hu => ?_
      refine (fresh_found hl3.live (τ.subst ρ)).bind fun v st4 θ4 hl4 hv => ?_
      have hfn := (ht.after hl3).after hl4
      refine .unified hl4.live (.con (.cons (hu.after hl4) (.cons hv .nil))) hfn fun st5 hl5 => ?_
      exact achieves_pure hl5.live (hv.after hl5)
  | .letIn _ g e, h, hs, he, hparts => by
    cases h with
    | letIn group body =>
      unfold inferExpr
      refine hs.visited fun st1 θ1 hs1 => ?_
      refine (inferGroup_complete g group hs1 he.1 hparts.2.1).bind fun r st2 θ2 hl2 hr => ?_
      exact inferExpr_complete e (hr.2.symm ▸ body) hr.1 he.2 hparts.2.2
  | .typed span e t, h, hs, he, hparts => by
    cases h with
    | typed written inner =>
      unfold inferExpr
      refine hs.visited fun st1 θ1 hs1 => ?_
      refine (resolve_found hs1.live hs1.ready he.1 (written.subst ρ)).bind fun d st2 θ2 hl2 hd => ?_
      refine (inferExpr_complete e inner (hs1.after hl2) he.2 hparts.2).bind fun u st3 θ3 hl3 hu => ?_
      refine .unified hl3.live ⟨hd.1.fit _, hd.2 _⟩ hu fun st4 hl4 => ?_
      exact achieves_pure hl4.live ⟨hd.1.fit _, hd.2 _⟩
  | .ite _ c y n, h, hs, he, hparts => by
    cases h with
    | ite test yes no =>
      unfold inferExpr
      refine hs.visited fun st1 θ1 hs1 => ?_
      refine (inferExpr_complete c test hs1 he.1 hparts.2.1).bind fun b st2 θ2 hl2 hb => ?_
      refine .unified hl2.live (.con .nil) hb fun st3 hl3 => ?_
      have hs3 := (hs1.after hl2).after hl3
      refine (inferExpr_complete y yes hs3 he.2.1 hparts.2.2.1).bind fun t st4 θ4 hl4 ht => ?_
      refine (inferExpr_complete n no (hs3.after hl4) he.2.2 hparts.2.2.2).bind fun u st5 θ5 hl5 hu => ?_
      have ht5 := ht.after hl5
      refine .unified hl5.live ht5 hu fun st6 hl6 => ?_
      exact achieves_pure hl6.live (ht5.after hl6)
  | .block span body, h, hs, he, hparts => by
    cases h with
    | @block _ _ _ _ c τ stmts =>
      unfold inferExpr
      refine hs.visited fun st1 θ1 hs1 => ?_
      simp only [DerivesBody.isEmpty_eq stmts, Bool.false_eq_true, if_false]
      refine (fresh_found hs1.live (c.subst ρ)).bind fun ct st2 θ2 hl2 hct => ?_
      refine (inferBody_complete body stmts (hs1.after hl2) hct he hparts.2).bind fun t st3 θ3 hl3 ht => ?_
      exact achieves_pure hl3.live (.con (.cons (hct.after hl3) (.cons ht .nil)))
  | .paren _ e, h, hs, he, hparts => by
    cases h with
    | paren inner =>
      unfold inferExpr
      refine hs.visited fun st1 θ1 hs1 => ?_
      exact inferExpr_complete e inner hs1 he hparts.2

theorem inferElems_complete {Γ : Assumptions} {ρ : String → Mono} {env : TypeEnv} {τ : Mono} {t : Ty} {st : CheckState}
    {θ : Nat → Mono} : ∀ es : List Expr, (∀ e ∈ es, Derives env.aliases Γ e τ) → Setting Γ ρ env st θ →
    TypeFound (τ.subst ρ) t st θ → Expr.AllTypesList Ty.Plain es →
    Expr.AllPartsList (fun e => e.isLookup = false) (fun _ => True) es →
    Achieves Solved (inferElems env t es) st θ fun _ _ _ => True
  | [], h, hs, ht, _, _ => by
    unfold inferElems
    exact achieves_pure hs.live trivial
  | e :: es, h, hs, ht, hes, hparts => by
    obtain ⟨hhead, htail⟩ := List.forall_mem_cons.1 h
    unfold inferElems
    refine (inferExpr_complete e hhead hs hes.1 hparts.1).bind fun u st1 θ1 hl1 hu => ?_
    have ht1 := ht.after hl1
    refine .unified hl1.live ht1 hu fun st2 hl2 => ?_
    exact inferElems_complete es htail ((hs.after hl1).after hl2) (ht1.after hl2) hes.2 hparts.2

theorem inferExprs_complete {Γ : Assumptions} {ρ : String → Mono} {env : TypeEnv} {τs : List Mono} {st : CheckState}
    {θ : Nat → Mono} : ∀ es : List Expr, DerivesAll env.aliases Γ es τs → Setting Γ ρ env st θ →
    Expr.AllTypesList Ty.Plain es → Expr.AllPartsList (fun e => e.isLookup = false) (fun _ => True) es →
    Achieves Solved (inferExprs env es) st θ fun ts st' θ' =>
      (∀ t ∈ ts, t.Fit st'.nextHole) ∧ ts.map (under θ') = τs.map (Mono.subst ρ)
  | [], h, hs, _, _ => by
    cases h
    unfold inferExprs
    exact achieves_pure hs.live ⟨List.forall_mem_nil _, rfl⟩
  | e :: es, h, hs, hes, hparts => by
    cases h with
    | cons head tail =>
      unfold inferExprs
      refine (inferExpr_complete e head hs hes.1 hparts.1).bind fun t st1 θ1 hl1 ht => ?_
      refine (inferExprs_complete es tail (hs.after hl1) hes.2 hparts.2).bind fun ts st2 θ2 hl2 hts => ?_
      have ht2 := ht.after hl2
      refine achieves_pure hl2.live ⟨List.forall_mem_cons.2 ⟨ht2.fit, hts.1⟩, ?_⟩
      rw [List.map_cons, List.map_cons, ht2.type, hts.2]

theorem inferFields_complete {Γ : Assumptions} {ρ : String → Mono} {env : TypeEnv} {bs : Typings} {st : CheckState}
    {θ : Nat → Mono} : ∀ fields : List (String × Expr), DerivesFields env.aliases Γ fields bs → Setting Γ ρ env st θ →
    Expr.AllTypesFields Ty.Plain fields → Expr.AllPartsFields (fun e => e.isLookup = false) (fun _ => True) fields →
    Achieves Solved (inferFields env fields) st θ fun ts st' θ' =>
      Table.names ts = Table.names fields ∧ (∀ t ∈ ts, t.2.Fit st'.nextHole) ∧ typingsUnder θ' ts = substTypings ρ bs
  | [], h, hs, _, _ => by
    cases h
    unfold inferFields
    exact achieves_pure hs.live ⟨rfl, List.forall_mem_nil _, rfl⟩
  | (name, e) :: fields, h, hs, hfields, hparts => by
    cases h with
    | cons head tail =>
      unfold inferFields
      refine (inferExpr_complete e head hs hfields.1 hparts.1).bind fun t st1 θ1 hl1 ht => ?_
      refine (inferFields_complete fields tail (hs.after hl1) hfields.2 hparts.2).bind fun ts st2 θ2 hl2 hts => ?_
      obtain ⟨hnames, hfit, htypes⟩ := hts
      have ht2 := ht.after hl2
      refine achieves_pure hl2.live ⟨congrArg (name :: ·) hnames, List.forall_mem_cons.2 ⟨ht2.fit, hfit⟩, ?_⟩
      exact congrArg₂ (fun τ bs => (name, τ) :: bs) ht2.type htypes

theorem inferBody_complete {Γ : Assumptions} {ρ : String → Mono} {env : TypeEnv} {c τ : Mono} {ct : Ty}
    {st : CheckState} {θ : Nat → Mono} : ∀ body : List Stmt, DerivesBody env.aliases Γ c body τ → Setting Γ ρ env st θ →
    TypeFound (c.subst ρ) ct st θ → Stmt.AllTypesList Ty.Plain body →
    Stmt.AllPartsList (fun e => e.isLookup = false) (fun _ => True) body →
    Achieves Solved (inferBody env ct body) st θ (TypeFound (τ.subst ρ))
  | [], h, _, _, _, _ => by
    cases h
  | .bind span p e :: rest, h, hs, hct, hbody, hparts => by
    obtain ⟨υ, bs, action, result, hrest⟩ := DerivesBody.bind_cases h
    unfold inferBody
    refine (inferExpr_complete e action hs hbody.1.2 hparts.1).bind fun t st1 θ1 hl1 ht => ?_
    refine (fresh_found hl1.live (υ.subst ρ)).bind fun v st2 θ2 hl2 hv => ?_
    have hct2 := (hct.after hl1).after hl2
    refine .unified hl2.live (.con (.cons hct2 (.cons hv .nil))) (ht.after hl2) fun st3 hl3 => ?_
    have hs3 := ((hs.after hl1).after hl2).after hl3
    refine (inferPattern_complete p (result.subst ρ) hbody.1.1 hs3.live hs3.ready).bind fun r st4 θ4 hl4 hr => ?_
    have hv4 := (hv.after hl3).after hl4
    refine .unified hl4.live hr.toTypeFound hv4 fun st5 hl5 => ?_
    obtain ⟨hempty, hwild, rfl⟩ | ⟨hempty, next⟩ := hrest
    · simp only [hempty, hwild, if_true]
      exact achieves_pure hl5.live (hv4.after hl5)
    · simp only [hempty, Bool.false_eq_true, if_false]
      have hs5 := ((hs3.after hl4).bindMono hr.fitBinds hr.binds).after hl5
      have hct5 := ((hct2.after hl3).after hl4).after hl5
      exact inferBody_complete rest (aliases_bindMono env r.2 ▸ next) hs5 hct5 hbody.2 hparts.2
  | .define span g :: rest, h, hs, hct, hbody, hparts => by
    cases h with
    | define group next =>
      unfold inferBody
      simp only [DerivesBody.isEmpty_eq next, Bool.false_eq_true, if_false]
      refine (inferGroup_complete g group hs hbody.1 hparts.1).bind fun r st1 θ1 hl1 hr => ?_
      exact inferBody_complete rest (hr.2.symm ▸ next) hr.1 (hct.after hl1) hbody.2 hparts.2
  | .typedef span name t :: rest, h, hs, hct, hbody, hparts => by
    cases h with
    | @typedef _ _ _ _ _ _ u _ _ written next =>
      unfold inferBody
      simp only [DerivesBody.isEmpty_eq next, Bool.false_eq_true, if_false]
      have hresolve : resolve env t (some span) st = .ok u st := by
        rw [resolve, written]
        rfl
      refine Achieves.bind (Q := fun v st' θ' => v = u) ⟨u, st, θ, hresolve, .refl hs.live, rfl⟩ ?_
      rintro _ st1 θ1 hl1 rfl
      have hs1 := (hs.after hl1).bindAlias hbody.1 written name
      exact inferBody_complete rest next hs1 (hct.after hl1) hbody.2 hparts.2
  | .code span _ :: rest, h, hs, hct, hbody, hparts
  | .importTerms span _ _ :: rest, h, hs, hct, hbody, hparts => by
    have next : DerivesBody env.aliases Γ c rest τ := by
      cases h
      assumption
    unfold inferBody
    simp only [DerivesBody.isEmpty_eq next, Bool.false_eq_true, if_false]
    exact inferBody_complete rest next hs hct hbody.2 hparts.2

theorem inferBound_complete {Γ : Assumptions} {ρ : String → Mono} {env : TypeEnv} {τ : Mono} {bs : Typings}
    {st : CheckState} {θ : Nat → Mono} : ∀ d : Decl, Derives env.aliases Γ d.body τ → d.pattern.Takes env.aliases τ bs →
    Setting Γ ρ env st θ → d.AllTypes Ty.Plain → d.AllParts (fun e => e.isLookup = false) (fun _ => True) →
    Achieves Solved (inferBound env d) st θ (TypeFound (τ.subst ρ))
  | .mk span p e, h, htakes, hs, hd, hparts => by
    unfold inferBound
    refine (inferExpr_complete e h hs hd.2 hparts).bind fun t st1 θ1 hl1 ht => ?_
    have hs1 := hs.after hl1
    refine (inferPattern_complete p (htakes.subst ρ) hd.1 hs1.live hs1.ready).bind fun r st2 θ2 hl2 hr => ?_
    have ht2 := ht.after hl2
    exact .unified hl2.live hr.toTypeFound ht2 fun st3 hl3 => achieves_pure hl3.live (ht2.after hl3)

theorem inferBodies_complete {Γ : Assumptions} {ρ : String → Mono} {env : TypeEnv} {bs : Typings}
    {binds : List (String × Ty)} {st : CheckState} {θ : Nat → Mono} : ∀ ds : List Decl,
    DerivesMembers env.aliases Γ ds bs → Setting Γ ρ env st θ → MembersFound ρ bs binds st θ →
    Decl.AllTypesList Ty.Plain ds → Decl.AllPartsList (fun e => e.isLookup = false) (fun _ => True) ds →
    Achieves Solved (inferBodies env ds (binds.map (·.2))) st θ fun _ _ _ => True
  | [], h, hs, _, _, _ => by
    unfold inferBodies
    exact achieves_pure hs.live trivial
  | .mk span p e :: ds, h, hs, hfound, hds, hparts => by
    cases h with
    | cons takes body rest =>
      obtain ⟨t, binds, rfl, ht, hfound⟩ := hfound.cons
      rw [List.map_cons]
      unfold inferBodies
      refine (inferExpr_complete e body hs hds.1.2 hparts.1).bind fun u st1 θ1 hl1 hu => ?_
      have ht1 := ht.after hl1
      refine .unified hl1.live ht1 hu fun st2 hl2 => ?_
      have hfound2 := (hfound.after hl1).after hl2
      exact inferBodies_complete ds rest ((hs.after hl1).after hl2) hfound2 hds.2 hparts.2

theorem inferGroup_complete {Γ Δ : Assumptions} {ρ : String → Mono} {env : TypeEnv} {st : CheckState} {θ : Nat → Mono} :
    ∀ g : Group, DerivesGroup env.aliases Γ g Δ → Setting Γ ρ env st θ → g.AllTypes Ty.Plain →
    g.AllParts (fun e => e.isLookup = false) (fun _ => True) → Achieves Solved (inferGroup env g) st θ fun r st' θ' =>
      Setting Δ ρ r.2 st' θ' ∧ r.2.aliases = env.aliases
  | .single span (.mk dspan p e), h, hs, hg, hparts => by
    cases h with
    | single body takes generalized =>
      refine single_achieves hs hg.1 hg.2 takes generalized fun ρ' hρ' => ?_
      exact inferBound_complete (.mk dspan p e) body takes (hs.of_agree hρ') hg hparts.2
  | .recursive span ds, h, hs, hg, hparts => by
    cases h with
    | recursive typed generalized =>
      refine recursive_achieves hs typed generalized fun ρ' hρ' => ?_
      have hs' := hs.of_agree hρ'
      unfold inferMemberTypes
      refine (inferMembers_complete ρ' ds typed hg hs'.live hs'.ready).bind ?_
      rintro _ st1 θ1 hl1 ⟨binds, rfl, hfound⟩
      have hs1 := (hs'.after hl1).bindMono hfound.fit hfound.binds
      refine (inferBodies_complete ds (aliases_bindMono env binds ▸ typed) hs1 hfound hg hparts.2).bind ?_
      rintro ⟨⟩ st2 θ2 hl2 -
      exact achieves_pure hl2.live ⟨binds, rfl, hfound.after hl2⟩

end

end Check

/-! ## Checks with a state of their own -/

theorem live_initial (θ : Nat → Mono) : CheckState.initial.Live Solved θ :=
  ⟨⟨trivial, List.forall_mem_nil _⟩, trivial, List.forall_mem_nil _⟩

/-- A session as it is when an expression is checked: the schemas are complete, and no record has a field
twice. -/
structure TypeEnv.Plain (env : TypeEnv) : Prop where
  complete : env.Complete
  types : ∀ e ∈ env.types, e.2.type.Solid List.Nodup
  aliases : ∀ e ∈ env.aliases, e.2.Solid List.Nodup

theorem TypeEnv.Plain.ready {env : TypeEnv} (h : env.Plain) (n : Nat) : env.Ready n :=
  ⟨h.complete.closed, fun e he => (h.types e he).below n, h.aliases⟩

/-- The instances of the schemas of a session are the types in its scope. -/
theorem TypeEnv.within_assumptions (env : TypeEnv) : env.assumptions.Within .var (env.under fun _ => .unit) := by
  intro x σ hx ρ hρ
  rw [assumptions, Table.get?_map fun s : Schema => Poly.mk s.vars (s.at .var)] at hx
  obtain ⟨s, hs, rfl⟩ := Option.map_eq_some_iff.1 hx
  refine ⟨s, hs, ρ, ?_⟩
  rw [Schema.at, Ty.denote_subst]
  rfl

/-- An expression that has a type and looks up no part of a record or of a tuple is checked, and the type is an
instance of its schema. -/
theorem checkExpr_complete {env : TypeEnv} {e : Expr} {τ : Mono} (henv : env.Plain) (he : e.AllTypes Ty.Plain)
    (hlookup : e.LookupFree) (h : Derives env.aliases env.assumptions e τ) :
    ∃ s st, checkExpr env e .initial = .ok s st ∧ ∃ ρ, τ = s.at ρ := by
  have hs : Check.Setting env.assumptions .var env .initial fun _ => .unit :=
    ⟨live_initial _, henv.ready _, env.within_assumptions⟩
  obtain ⟨t, st, θ, hrun, hl, hfound⟩ := Check.inferExpr_complete e h hs he hlookup
  obtain ⟨s, hgeneralize⟩ : ∃ s, Check.generalize env t st = .ok s st := ⟨_, Check.generalize_eq env st t⟩
  have hcheck : checkExpr env e .initial = .ok s st := by
    simp only [checkExpr, Bind.bind, EStateM.bind, hrun, hgeneralize]
  have hground := e.allTypes_imp (fun _ h => Ty.Plain.ground h) he
  obtain ⟨hcomplete, -⟩ := checkExpr_sound henv.complete hground hcheck
  obtain ⟨ρ, hρ⟩ := Check.generalize_instance hgeneralize hs.ready hl hl
  refine ⟨s, st, hcheck, ρ, ?_⟩
  rw [← hcomplete.denote_eq θ, hρ, hfound.type, Mono.subst_var]

/-- `let (id, n) = (\x -> x, 1) in (id n, id true)`: the identity is used at two types. -/
def sharedIdentity : Expr :=
  let at1 := Span.point "script" 1 1
  .letIn at1
    (.single at1 (.mk at1 (.tuple at1 [.var at1 "id" none, .var at1 "n" none] none)
      (.tuple at1 [.lam at1 (.var at1 "x" none) (.var at1 "x"), .int at1 1])))
    (.tuple at1 [.app at1 (.var at1 "id") (.var at1 "n"), .app at1 (.var at1 "id") (.bool at1 true)])

theorem sharedIdentity_derives : Derives [] [] sharedIdentity (.tuple [.int, .bool]) := by
  have hunwritten : ∀ {τ : Mono}, ∀ t ∈ (none : Option Ty), Ascribes [] t τ :=
    fun t ht => absurd ht (Option.not_mem_none t)
  have hinstance : ∀ τ, Poly.Instance ⟨["a"], .fn (.var "a") (.var "a")⟩ (.fn τ τ) := fun τ =>
    ⟨fun x => if x = "a" then τ else .var x, fun x hx => if_neg (List.mem_singleton.not.1 hx), rfl⟩
  have hself : ∀ {vars : List String} {τ : Mono}, Poly.Instance ⟨vars, τ⟩ τ := fun {_ τ} =>
    ⟨.var, fun _ _ => rfl, τ.subst_var.symm⟩
  refine .letIn (Δ := Assumptions.bind [] (quantify ["a"] [("id", .fn (.var "a") (.var "a")), ("n", .int)])) ?_ ?_
  · refine .single (.tuple (.cons (.lam (.var hunwritten) (.var rfl hself)) (.cons .int .nil)))
      (.tuple hunwritten (.cons (.var hunwritten) (.cons (.var hunwritten) .nil))) ?_
    rintro x - ⟨y, σ, hget, -⟩
    cases hget
  · exact .tuple (.cons (.app (.var rfl (hinstance .int)) (.var rfl hself))
      (.cons (.app (.var rfl (hinstance .bool)) .bool) .nil))

theorem sharedIdentity_complete :
    (TypeEnv.mk [] []).Plain ∧ sharedIdentity.AllTypes Ty.Plain ∧ sharedIdentity.LookupFree ∧
      ∃ s st, checkExpr ⟨[], []⟩ sharedIdentity .initial = .ok s st ∧ ∃ ρ, Mono.tuple [.int, .bool] = s.at ρ := by
  have henv : (TypeEnv.mk [] []).Plain :=
    ⟨⟨List.forall_mem_nil _, List.forall_mem_nil _⟩, List.forall_mem_nil _, List.forall_mem_nil _⟩
  have htypes : sharedIdentity.AllTypes Ty.Plain := by
    simp [sharedIdentity, Expr.AllTypes, Expr.AllTypesList, Group.AllTypes, Decl.AllTypes, Pattern.AllTypes,
      Pattern.AllTypesList]
  have hlookup : sharedIdentity.LookupFree := by
    simp [sharedIdentity, Expr.LookupFree, Expr.AllParts, Expr.AllPartsList, Group.AllParts, Decl.AllParts,
      Expr.isLookup]
  exact ⟨henv, htypes, hlookup, checkExpr_complete henv htypes hlookup sharedIdentity_derives⟩

end VeriScript
