import VeriScript.Proofs.Typing.Fitting
import VeriScript.Proofs.Typing.Rigid
import VeriScript.Proofs.Typing.Saturation
import VeriScript.Proofs.Typing.Tracing
import VeriScript.Proofs.Typing.Widening

/-!
# Types written on blocks at the top level

At the top level, the type that is written on a pattern is written on the block behind it.  What that asks of the
block is decided by the type of the block alone.

* `Check.settle` — the schema of a declaration of the top level, once its type is found.
* `Check.SettlesAs` — the type found is that of a block of the top level with a result of a given type.
* `Check.checkDecl_typed_of_agrees`, `Check.agrees_of_checkDecl_typed` — with a type written on it, such a block is
  accepted if the type stands for that of its result, and only then.
* `Check.textFault?_of_checkDecl_typed` — otherwise there is a type error, if all types have the parameters they take.
-/

namespace VeriScript

open Ty (NoHoles NoVars Ground Solves under shape)

/-! ## Ground types -/

namespace Ty

variable {t u : Ty} {x : String}

/-- The variables of a type are those of every type that differs in the order of fields only. -/
theorem Alike.mem_varNames (h : Alike t u) (ht : t.Distinct) (hx : x ∈ t.varNames) : x ∈ u.varNames := by
  induction h with
  | @con name as bs length _ ih =>
    obtain ⟨a, ha, hx⟩ := mem_varNames_con.1 hx
    obtain ⟨i, hi, rfl⟩ := List.getElem_of_mem ha
    cases ht with
    | con hargs =>
      have hi' : i < bs.length := length ▸ hi
      have hzip : (as[i], bs[i]) ∈ as.zip bs := List.mem_iff_getElem.2 ⟨i, by simp [hi, hi'], by simp⟩
      exact mem_varNames_con.2 ⟨bs[i], List.getElem_mem hi', ih _ hzip (hargs _ ha) hx⟩
  | var => exact hx
  | hole => exact hx
  | @record fs gs names _ ih =>
    obtain ⟨f, hf, hx⟩ := mem_varNames_record.1 hx
    cases ht with
    | record hnodup hfields =>
      have hget := Table.get?_of_mem hnodup hf
      have hhas : Table.has gs f.1 = true := by
        rw [← Table.sameNames_iff.1 names, Table.has, hget]
        rfl
      obtain ⟨g, hg⟩ := Option.isSome_iff_exists.1 hhas
      exact mem_varNames_record.2 ⟨_, Table.mem_of_get? hg, ih _ _ _ hget hg (hfields f hf) hx⟩

theorem Alike.ground (h : Alike t u) (ht : t.Solid List.Nodup) (hu : u.NoVars) : t.Ground :=
  ⟨ht.noHoles, fun x hx => hu x (h.mem_varNames ht.distinct hx)⟩

end Ty

/-- There is nothing to quantify in a type without holes and variables. -/
theorem Ty.Ground.generalizeOver_eq {t : Ty} (h : t.Ground) (kept : List Nat) : t.generalizeOver kept = ⟨[], t⟩ := by
  have hvars : t.varNames = [] := List.eq_nil_iff_forall_not_mem.2 h.2
  have hholes : t.holes = [] := List.eq_nil_iff_forall_not_mem.2 h.1
  simp [Ty.generalizeOver, hvars, hholes, freshNames]

theorem CheckState.Sound.seeing {R : List String → Prop} {st : CheckState} (h : st.Sound R) (seen : List String) :
    (st.seeing seen).Sound R :=
  ⟨h.layered, h.bound⟩

namespace Check

variable {α : Type} {env : TypeEnv} {st st' : CheckState} {bs : Bindings} {t u : Ty} {span : Span} {θ : Nat → Mono}

/-- A schema that quantifies nothing, and that shares no holes with the environment, is a type without either. -/
theorem ground_of_schemaOf (henv : env.NoHoles) (h : schemaOf env bs t = ⟨[], u⟩) :
    u.Ground ∧ Ty.applyBindings bs t = u := by
  have hkept : keptHoles env bs = [] := by
    refine List.flatMap_eq_nil_iff.2 fun e he => ?_
    rw [(henv e he).applyBindings_eq]
    exact List.eq_nil_iff_forall_not_mem.2 (henv e he)
  obtain ⟨names, hvars, -, -, hlength⟩ := vars_schemaOf env bs t
  rw [h] at hvars
  obtain ⟨hnoVars, rfl⟩ := List.append_eq_nil_iff.1 hvars.symm
  have hnoHoles : (Ty.applyBindings bs t).holes = [] := by
    have hzero := hlength.symm
    simpa [hkept] using hzero
  have hground : (Ty.applyBindings bs t).Ground :=
    ⟨List.eq_nil_iff_forall_not_mem.1 hnoHoles, List.eq_nil_iff_forall_not_mem.1 hnoVars⟩
  rw [schemaOf, hground.generalizeOver_eq] at h
  obtain rfl := (Schema.mk.inj h).2
  exact ⟨hground, rfl⟩

/-! ## The top level -/

theorem Achieves.of_ok {x : Check α} {a : α} {Q : α → CheckState → (Nat → Mono) → Prop} (h : Achieves Any x st θ Q)
    (hx : x st = .ok a st') : ∃ θ', st.Leads Any θ st' θ' ∧ Q a st' θ' := by
  obtain ⟨b, st1, θ1, hrun, hl, hQ⟩ := h
  rw [hx] at hrun
  cases hrun
  exact ⟨θ1, hl, hQ⟩

/-- A block that may run at the top level can be given the context of the top level. -/
theorem defaultContext_achieves (hst : st.Live Any θ) (ht : t.Below List.Nodup st.nextHole)
    (h : t.under θ = (Ty.block (.context .topLevel) u).shape) :
    Achieves Any (defaultContext t span) st θ fun _ _ θ' => θ' = θ := by
  have hbelow : (Ty.applyBindings st.bindings t).Below List.Nodup st.nextHole :=
    ht.applyBindings fun b hb => (hst.sound.bound b hb).2
  have hunder := Ty.under_applyBindings (t := t) hst.solves
  rw [h] at hunder
  unfold defaultContext
  refine Achieves.bind (Q := fun v st' θ' => v = Ty.applyBindings st.bindings t ∧ st = st' ∧ θ = θ')
    ⟨_, st, θ, rfl, .refl hst, rfl, rfl, rfl⟩ ?_
  rintro v _ _ - ⟨hv, rfl, rfl⟩
  split
  · rw [← hv] at hunder
    cases hunder
  · rename_i c args
    rw [← hv] at hbelow hunder
    have hhole : (Ty.context .topLevel).under θ = (Ty.hole c).under θ := by
      rw [under_con, shape, under_block] at hunder
      exact (List.cons.inj (Mono.con.inj hunder).2).1.symm
    cases hbelow with
    | con hargs => exact unify_achieves hst (.con (List.forall_mem_nil _)) (hargs _ List.mem_cons_self) hhole trivial
  · exact achieves_pure hst rfl

theorem defaultContext_solves (hst : st.Sound List.Nodup) (h : defaultContext t span st = .ok () st') :
    ∀ θ, Solves θ st'.bindings → Solves θ st.bindings := by
  suffices hyields : Yields (defaultContext t span) st fun _ st' =>
      ∀ θ, Solves θ st'.bindings → Solves θ st.bindings from hyields.of_ok h
  unfold defaultContext
  rw [yields_bind, yields_zonk]
  split
  · trivial
  · unfold Yields
    split
    · rename_i hunify
      exact fun θ hθ => (under_eq_of_unify hst.layered hunify hθ).1
    · trivial
  · exact fun θ hθ => hθ

/-- The schema of a declaration of the top level that binds no name, once its type is found. -/
def settle (env : TypeEnv) (span : Span) (t : Ty) : Check Schema := do
  let u ← fresh
  unify u t span
  defaultContext t span
  generalize env t

theorem checkDecl_eq_settle (env : TypeEnv) (span : Span) (e : Expr) :
    checkDecl env true (.mk span (.wildcard span none) e) = (do settle env span (← inferExpr env e)) := by
  simp [checkDecl, inferDecl, inferPattern, settle]

theorem settle_keeps (span : Span) (hst : st.Sound List.Nodup) (henv : env.Below List.Nodup st.nextHole)
    (ht : t.Below List.Nodup st.nextHole) : Keeps List.Nodup (settle env span t) st fun s st' =>
      s = schemaOf env st'.bindings t ∧ ∀ θ, Solves θ st'.bindings → Solves θ st.bindings := by
  refine ((fresh_keeps hst).and fun _ _ => bindings_fresh).bind fun u st1 hst1 hle1 hu => ?_
  have ht1 := ht.mono hle1
  refine ((unify_keeps hst1 hu.1 ht1).and fun _ _ => id).bind fun _ st2 hst2 hle2 hunify => ?_
  have ht2 := ht1.mono hle2
  refine ((defaultContext_keeps hst2 ht2).and fun _ _ => defaultContext_solves hst2).bind ?_
  intro _ st3 hst3 hle3 hcontext
  have henv3 := henv.mono (hle1.trans (hle2.trans hle3))
  refine ⟨(generalize_keeps hst3 henv3 (ht2.mono hle3)).throughout, fun s st' h => ?_⟩
  rw [generalize_eq] at h
  cases h
  refine ⟨Nat.le_refl _, rfl, fun θ hθ => ?_⟩
  obtain ⟨hθ, -⟩ := under_eq_of_unify hst1.layered hunify.2 (hcontext.2 θ hθ)
  exact hu.2 ▸ hθ

/-- A block that may run at the top level is settled. -/
theorem settle_achieves (env : TypeEnv) (hst : st.Live Any θ) (ht : t.Below List.Nodup st.nextHole)
    (h : t.under θ = (Ty.block (.context .topLevel) u).shape) :
    Achieves Any (settle env span t) st θ fun s st' _ => s = schemaOf env st'.bindings t := by
  refine (fresh_achieves hst (t.under θ)).bind fun v st1 θ1 hl1 hv => ?_
  have ht1 := ht.mono hl1.le
  have hunder := ht.under_eq hl1.agree
  refine (unify_achieves hl1.live hv.1 ht1 (hv.2.trans hunder.symm) trivial).bind ?_
  rintro ⟨⟩ st2 _ hl2 rfl
  refine (defaultContext_achieves hl2.live (ht1.mono hl2.le) (hunder.trans h)).bind ?_
  rintro ⟨⟩ st3 _ hl3 rfl
  exact ⟨_, st3, _, generalize_eq env st3 t, .refl hl3.live, rfl⟩

/-- The type found for a block can be that of a block of the top level with a result of type `t`, and with no other
result. -/
structure SettlesAs (st : CheckState) (found t : Ty) : Prop where
  ground : t.Ground
  possible : ∃ θ, Solves θ st.bindings ∧ found.under θ = (Ty.block (.context .topLevel) t).shape
  only : ∀ θ u, Solves θ st.bindings → found.under θ = (Ty.block (.context .topLevel) u).shape → u.shape = t.shape

theorem shape_block (c t : Ty) : (Ty.block c t).shape = .block c.shape t.shape :=
  under_block _ c t

theorem shape_block_inj {c : Ty} (h : (Ty.block c t).shape = (Ty.block c u).shape) : t.shape = u.shape := by
  rw [shape_block, shape_block] at h
  have hargs := (Mono.con.inj h).2
  simp only [List.cons.injEq, and_true, true_and] at hargs
  exact hargs

theorem settlesAs_of_ok {found : Ty} (henv : env.Below List.Nodup 0) (hst : st.Sound List.Nodup)
    (hfound : found.Below List.Nodup st.nextHole)
    (h : settle env span found st = .ok ⟨[], .block (.context .topLevel) t⟩ st') : SettlesAs st found t := by
  have hkeeps := settle_keeps span hst (henv.mono (Nat.zero_le _)) hfound
  obtain ⟨-, hschema, hsolves⟩ := hkeeps.result _ _ h
  have hnoHoles : env.NoHoles := fun e he i hi => absurd ((henv.types e he).mem_holes i hi) (Nat.not_lt_zero i)
  obtain ⟨hground, happlied⟩ := ground_of_schemaOf hnoHoles hschema.symm
  have hunder : ∀ {θ}, Solves θ st'.bindings → found.under θ = (Ty.block (.context .topLevel) t).shape := by
    intro θ hθ
    rw [← Ty.under_applyBindings hθ, happlied, hground.1.under_eq]
  constructor
  · exact (Ty.ground_con.1 hground) t (by simp)
  · obtain ⟨θ, hθ⟩ := (hkeeps.sound_of_ok h).layered.exists_solves
    exact ⟨θ, hsolves θ hθ, hunder hθ⟩
  · intro θ u hθ hu
    obtain ⟨θ', hl, -⟩ := (settle_achieves env ⟨hst, trivial, hθ⟩ hfound hu).of_ok h
    have hagree := hfound.under_eq hl.agree
    rw [hunder hl.live.solves, hu] at hagree
    exact (shape_block_inj hagree).symm

/-! ## Blocks with a written type -/

theorem solid_action (h : u.Solid List.Nodup) : (Ty.block (.context .topLevel) u).Solid List.Nodup := by
  refine .con (List.forall_mem_cons.2 ⟨.con (List.forall_mem_nil _), ?_⟩)
  exact List.forall_mem_singleton.2 h

theorem ground_action (h : u.Ground) : (Ty.block (.context .topLevel) u).Ground := by
  refine Ty.ground_con.2 (List.forall_mem_cons.2 ⟨Ty.ground_con.2 (List.forall_mem_nil _), ?_⟩)
  exact List.forall_mem_singleton.2 h

/-- A written type is resolved where it stands within a block of the top level. -/
theorem resolve_action_ok_iff {al : Aliases} {d v : Ty} :
    (Ty.block (.context .topLevel) d).resolve al = .ok v ↔
      ∃ u, d.resolve al = .ok u ∧ v = .block (.context .topLevel) u := by
  have haction : (Ty.block (.context .topLevel) d).resolve al =
      (d.resolve al).bind fun u => .ok (.block (.context .topLevel) u) := by
    simp only [Ty.resolve, Ty.resolveList]
    cases d.resolve al <;> rfl
  rw [haction]
  cases d.resolve al with
  | ok u => simp [Except.bind, eq_comm]
  | error fault => simp [Except.bind]

theorem exists_resolve_of_typed {e : Expr} {d v : Ty} (h : inferExpr env (.typed span e d) st = .ok v st') :
    ∃ u, d.resolve env.aliases = .ok u := by
  unfold inferExpr at h
  obtain ⟨⟨⟩, st1, -, h⟩ := exists_of_bind_ok h
  obtain ⟨u, st2, hresolve, -⟩ := exists_of_bind_ok h
  exact ⟨u, (resolve_ok hresolve).2⟩

/-- An expression with a written type has the type, if it is one that the expression can have. -/
theorem inferExpr_typed (span : Span) {e : Expr} {d found : Ty} (hinfer : inferExpr env e .initial = .ok found st)
    (hresolve : d.resolve env.aliases = .ok u) :
    inferExpr env (.typed span e d) .initial =
      (do
        unify u found span
        return u) (st.seeing ["TSIG"]) := by
  have hvisit : visit "TSIG" .initial = .ok () (CheckState.initial.seeing ["TSIG"]) := rfl
  have hvisited : inferExpr env e (CheckState.initial.seeing ["TSIG"]) = .ok found (st.seeing ["TSIG"]) := by
    rw [inferExpr_blind e env, hinfer]
  unfold inferExpr
  rw [bind_of_ok hvisit, bind_of_ok (resolve_of_ok hresolve), bind_of_ok hvisited]

section
variable {e : Expr} {d : Ty} {st0 : CheckState} (henv : env.Below List.Nodup 0)
  (he : e.AllTypes (Ty.Solid List.Nodup)) (hd : d.Solid List.Nodup)
  (hmono : checkDecl env true (.mk span (.wildcard span none) e) .initial =
    .ok ⟨[], .block (.context .topLevel) t⟩ st0)
include henv he hmono

/-- The type of an expression whose schema is that of a block of the top level. -/
theorem exists_settlesAs : ∃ found st, inferExpr env e .initial = .ok found st ∧ st.Sound List.Nodup ∧
    found.Below List.Nodup st.nextHole ∧ SettlesAs st found t := by
  rw [checkDecl_eq_settle] at hmono
  obtain ⟨found, st, hinfer, hsettle⟩ := exists_of_bind_ok hmono
  have hkeeps := inferExpr_keeps CheckState.sound_initial henv (fun _ => id) e he
  have hst := hkeeps.sound_of_ok hinfer
  have hfound := (hkeeps.result found st hinfer).2
  exact ⟨found, st, hinfer, hst, hfound, settlesAs_of_ok henv hst hfound hsettle⟩

include hd

theorem checkDecl_typed_of_agrees (h : t.shape.AgreesWith env.aliases (some d)) :
    ∃ u st, u.Alike t ∧
      checkDecl env true (.mk span (.wildcard span none) (.typed span e (.block (.context .topLevel) d))) .initial =
        .ok ⟨[], .block (.context .topLevel) u⟩ st := by
  obtain ⟨found, st1, hinfer, hst1, hfound, hsettles⟩ := exists_settlesAs henv he hmono
  obtain ⟨u, hu, hshapes⟩ := h d rfl
  have halike := Ty.alike_iff_shape_eq.2 hshapes
  have hsolid : u.Solid List.Nodup := resolve_every henv.aliases hd hu
  have hground := ground_action (halike.ground hsolid hsettles.ground.2)
  have hblock := solid_action hsolid
  obtain ⟨θ, hθ, hshape⟩ := hsettles.possible
  have hlive : (st1.seeing ["TSIG"]).Live Any θ := ⟨hst1.seeing _, trivial, hθ⟩
  have hunder : (Ty.block (.context .topLevel) u).under θ = found.under θ := by
    rw [hshape, hground.1.under_eq, shape_block, shape_block, hshapes]
  have hunify : Achieves Any (unify (.block (.context .topLevel) u) found span) _ θ _ :=
    unify_achieves hlive (hblock.below _) hfound hunder trivial
  obtain ⟨⟨⟩, st2, _, hunify, hl, rfl⟩ := hunify
  have hsettle : Achieves Any (settle env span (.block (.context .topLevel) u)) _ _ _ :=
    settle_achieves env hl.live (hblock.below _) (hground.1.under_eq _)
  obtain ⟨s, st3, -, hsettle, -, rfl⟩ := hsettle
  refine ⟨u, st3, halike, ?_⟩
  rw [checkDecl_eq_settle]
  have htyped := inferExpr_typed span hinfer (resolve_action_ok_iff.2 ⟨u, hu, rfl⟩)
  rw [bind_of_ok hunify] at htyped
  rw [bind_of_ok htyped, hsettle, schemaOf, hground.1.applyBindings_eq, hground.generalizeOver_eq]

omit he hmono in
/-- A type that unifies with the one found stands for the type of the result. -/
theorem agrees_of_unify {found : Ty} {st st' : CheckState} (hst : st.Sound List.Nodup)
    (hfound : found.Below List.Nodup st.nextHole) (hsettles : SettlesAs st found t) (hu : d.resolve env.aliases = .ok u)
    (hunify : unify (.block (.context .topLevel) u) found span st = .ok () st') :
    t.shape.AgreesWith env.aliases (some d) := by
  have hblock := solid_action (resolve_every henv.aliases hd hu)
  obtain ⟨θ, hθ⟩ := ((unify_keeps hst (hblock.below _) hfound).sound_of_ok hunify).layered.exists_solves
  obtain ⟨hθ, hunder⟩ := under_eq_of_unify hst.layered hunify hθ
  rintro _ ⟨⟩
  refine ⟨u, hu, hsettles.only θ u hθ ?_⟩
  rw [← hunder, hblock.noHoles.under_eq]

theorem agrees_of_checkDecl_typed {s : Schema} {st : CheckState}
    (h : checkDecl env true (.mk span (.wildcard span none) (.typed span e (.block (.context .topLevel) d))) .initial =
      .ok s st) : t.shape.AgreesWith env.aliases (some d) := by
  obtain ⟨found, st1, hinfer, hst1, hfound, hsettles⟩ := exists_settlesAs henv he hmono
  rw [checkDecl_eq_settle] at h
  obtain ⟨v, st2, htyped, -⟩ := exists_of_bind_ok h
  obtain ⟨w, hresolve⟩ := exists_resolve_of_typed htyped
  obtain ⟨u, hu, rfl⟩ := resolve_action_ok_iff.1 hresolve
  rw [inferExpr_typed span hinfer hresolve] at htyped
  obtain ⟨⟨⟩, st3, hunify, -⟩ := exists_of_bind_ok htyped
  exact agrees_of_unify henv hd (hst1.seeing _) hfound ⟨hsettles.ground, hsettles.possible, hsettles.only⟩ hu hunify

/-- If the type does not stand for that of the result, then what is raised is a type error: an unknown name in the type,
or a mismatch, whose message can be written where all types have the parameters they take. -/
theorem textFault?_of_checkDecl_typed {err : TypeError} {st : CheckState}
    (hnot : ¬ t.shape.AgreesWith env.aliases (some d))
    (h : checkDecl env true (.mk span (.wildcard span none) (.typed span e (.block (.context .topLevel) d))) .initial =
      .error err st) (henvS : env.Saturated) (heS : e.AllTypes Ty.Saturated) (hdS : d.Saturated) :
    err.fault.textFault? = none := by
  obtain ⟨found, st1, hinfer, hst1, hfound, hsettles⟩ := exists_settlesAs henv he hmono
  rw [checkDecl_eq_settle] at h
  cases hresolve : (Ty.block (.context .topLevel) d).resolve env.aliases with
  | error fault =>
    have htyped : inferExpr env (.typed span e (.block (.context .topLevel) d)) .initial =
        .error ⟨fault.raised, span⟩ (CheckState.initial.seeing ["TSIG"]) := by
      unfold inferExpr
      rw [bind_of_ok (rfl : visit "TSIG" .initial = .ok () (CheckState.initial.seeing ["TSIG"])), bind_of_error]
      rw [resolve, hresolve]
      rfl
    rw [bind_of_error htyped] at h
    cases h
    have hnone := Ty.textFault?_of_resolve_error hresolve
    simp only [TypeFault.raised, hnone]
  | ok w =>
    obtain ⟨u, hu, rfl⟩ := resolve_action_ok_iff.1 hresolve
    have htyped := inferExpr_typed span hinfer hresolve
    cases hunify : unify (.block (.context .topLevel) u) found span (st1.seeing ["TSIG"]) with
    | ok _ st2 =>
      have hsettles' : SettlesAs (st1.seeing ["TSIG"]) found t := ⟨hsettles.ground, hsettles.possible, hsettles.only⟩
      exact absurd (agrees_of_unify henv hd (hst1.seeing _) hfound hsettles' hu hunify) hnot
    | error e' st2 =>
      rw [bind_of_error hunify] at htyped
      rw [bind_of_error htyped] at h
      cases h
      have hbuilds := inferExpr_builds e heS henvS .initial (List.forall_mem_nil _)
      rw [hinfer] at hbuilds
      have hdS' : (Ty.block (.context .topLevel) d).Saturated :=
        Ty.saturated_con.2 ⟨(by decide : Ty.Fits ("Block", 2)), List.forall_mem_cons.2
          ⟨by decide, List.forall_mem_singleton.2 hdS⟩⟩
      have huS := (Ty.saturated_of_resolve henvS.aliases hresolve).2 hdS'
      obtain ⟨fault, hfault, rfl, hraised⟩ := unify_error hunify
      have hsame := hraised hbuilds.1 huS hbuilds.2
      rw [hsame]
      refine TypeFault.textFault?_of_raised hsame fun f => ?_
      obtain ⟨a, b, rfl⟩ | ⟨a, rfl⟩ := hfault <;> rintro ⟨⟩

end

end Check

end VeriScript
