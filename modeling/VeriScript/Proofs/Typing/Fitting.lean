import VeriScript.Proofs.Ty.MostGeneral
import VeriScript.Proofs.Typing.Invariant

/-!
# Patterns and the types they fit

A bind takes the result of a block apart by a pattern.  Where the type of the result is known, the pattern fits it or
inference refuses the bind.

* `Pattern.Fits` — the pattern has the shape of a type, and all the types written in it stand for parts of it.
* `Check.inferPattern_fits`, `Check.inferPattern_of_fits` — the type that inference finds for a pattern agrees with
  the types that the pattern fits, and with no others.
* `CheckState.Live`, `CheckState.Leads`, `Check.Achieves` — monotypes for the holes that agree with a state, how they
  are extended, and computations that succeed and extend them.
* `Check.inferTaken_iff` — so the two unify in these cases only.
* `Check.inferBind_iff` — and so are binds in a block accepted.
-/

namespace VeriScript

open Ty (NoHoles Solves under shape)

/-- A written type, if there is one, stands for the monotype. -/
def Mono.AgreesWith (al : Aliases) (τ : Mono) (written : Option Ty) : Prop :=
  ∀ d ∈ written, ∃ u, d.resolve al = .ok u ∧ u.shape = τ

mutual

/-- The pattern has the shape of the type, and every type written in it stands for its part of the type. -/
def Pattern.Fits (al : Aliases) : Pattern → Mono → Prop
  | .wildcard _ type?, τ | .var _ _ type?, τ => τ.AgreesWith al type?
  | .paren _ inner type?, τ => τ.AgreesWith al type? ∧ inner.Fits al τ
  | .tuple _ elems type?, τ => τ.AgreesWith al type? ∧ ∃ τs, τ = .tuple τs ∧ Pattern.FitsList al elems τs

def Pattern.FitsList (al : Aliases) : List Pattern → List Mono → Prop
  | p :: ps, τ :: τs => p.Fits al τ ∧ Pattern.FitsList al ps τs
  | [], [] => True
  | _, _ => False

end

/-- The outermost annotation of a pattern is one of those that have to fit. -/
theorem Pattern.Fits.declaredType {al : Aliases} {τ : Mono} : ∀ {p : Pattern}, p.Fits al τ →
    τ.AgreesWith al p.declaredType
  | .wildcard _ _, h => h
  | .var _ _ _, h => h
  | .tuple _ _ _, h => h.1
  | .paren _ _ (some _), h => h.1
  | .paren _ inner none, h => Pattern.Fits.declaredType (p := inner) h.2

namespace Ty

variable {t u : Ty} {θ : Nat → Mono}

theorem NoHoles.under_eq (h : t.NoHoles) (θ : Nat → Mono) : t.under θ = t.shape :=
  denote_congr (fun i hi => absurd hi (h i)) fun _ _ => rfl

theorem Solid.noHoles {R : List String → Prop} (h : t.Solid R) : t.NoHoles :=
  h.mem_holes

theorem Below.under_eq {R : List String → Prop} {n : Nat} (h : t.Below R n) {θ' : Nat → Mono}
    (hagree : ∀ i, i < n → θ' i = θ i) : t.under θ' = t.under θ :=
  denote_congr (fun i hi => hagree i (h.mem_holes i hi)) fun _ _ => rfl

/-- Bindings without cycles are solved by what they give for the holes. -/
theorem Layered.exists_solves {bs : Bindings} (h : Layered bs) : ∃ θ, Solves θ bs := by
  refine ⟨fun i => (applyBindings bs (.hole i)).shape, satisfies_iff.1 fun b hb => ?_⟩
  rw [assign_applyBindings, applyBindings_hole h hb]
  exact .refl _

end Ty

/-- The state is sound, its bindings have the property `S`, and monotypes for the holes solve them. -/
structure CheckState.Live (S : Bindings → Prop) (θ : Nat → Mono) (st : CheckState) : Prop where
  sound : st.Sound List.Nodup
  known : S st.bindings
  solves : Solves θ st.bindings

/-- Inference goes on to a state and to monotypes that agree on the holes introduced before. -/
structure CheckState.Leads (S : Bindings → Prop) (st : CheckState) (θ : Nat → Mono) (st' : CheckState)
    (θ' : Nat → Mono) : Prop where
  live : st'.Live S θ'
  le : st.nextHole ≤ st'.nextHole
  agree : ∀ i, i < st.nextHole → θ' i = θ i

namespace CheckState.Leads

variable {S S' : Bindings → Prop} {st st1 st' : CheckState} {θ θ1 θ' : Nat → Mono}

theorem refl (h : st.Live S θ) : st.Leads S θ st θ := ⟨h, Nat.le_refl _, fun _ _ => rfl⟩

theorem trans (h : st.Leads S θ st1 θ1) (h' : st1.Leads S θ1 st' θ') : st.Leads S θ st' θ' where
  live := h'.live
  le := h.le.trans h'.le
  agree i hi := (h'.agree i (Nat.lt_of_lt_of_le hi h.le)).trans (h.agree i hi)

theorem knowing (h : st.Leads S θ st' θ') (hS : S' st'.bindings) : st.Leads S' θ st' θ' :=
  ⟨⟨h.live.sound, hS, h.live.solves⟩, h.le, h.agree⟩

end CheckState.Leads

namespace Check

variable {α β : Type} {env : TypeEnv} {st st' : CheckState} {a b t : Ty} {τ : Mono} {span : Option Span}
  {θ : Nat → Mono}

theorem bind_of_ok {x : Check α} {f : α → Check β} {a : α} (h : x st = .ok a st') : (x >>= f) st = f a st' := by
  simp only [Bind.bind, EStateM.bind, h]

theorem bind_of_error {x : Check α} {f : α → Check β} {e : TypeError} (h : x st = .error e st') :
    (x >>= f) st = .error e st' := by
  simp only [Bind.bind, EStateM.bind, h]

theorem exists_of_bind_ok {x : Check α} {f : α → Check β} {b : β} (h : (x >>= f) st = .ok b st') :
    ∃ a st1, x st = .ok a st1 ∧ f a st1 = .ok b st' := by
  simp only [Bind.bind, EStateM.bind] at h
  split at h
  · rename_i a st1 hx
    exact ⟨a, st1, hx, h⟩
  · cases h

theorem exists_ok_bind_pure {x : Check α} (f : α → β) :
    (∃ b st', (x >>= fun a => pure (f a)) st = .ok b st') ↔ ∃ a st', x st = .ok a st' := by
  simp only [Bind.bind, EStateM.bind]
  cases x st with
  | ok a st' => exact ⟨fun _ => ⟨a, st', rfl⟩, fun _ => ⟨f a, st', rfl⟩⟩
  | error e st' => simp

theorem Keeps.and {R : List String → Prop} {x : Check α} {Q Q' : α → CheckState → Prop} (h : Keeps R x st Q)
    (h' : ∀ a st', x st = .ok a st' → Q' a st') : Keeps R x st fun a st' => Q a st' ∧ Q' a st' :=
  ⟨h.throughout, fun a st' hx => ⟨(h.result a st' hx).1, (h.result a st' hx).2, h' a st' hx⟩⟩

/-! ## Steps and the monotypes that solve them -/

/-- Monotypes that solve what unification ends with make both types the same. -/
theorem under_eq_of_unify (hst : Ty.Layered st.bindings) (h : unify a b span st = .ok () st')
    (hθ : Solves θ st'.bindings) : Solves θ st.bindings ∧ a.under θ = b.under θ :=
  Ty.solves_of_unify hst (unify_ok h) hθ

theorem bindings_fresh (h : fresh st = .ok t st') : st'.bindings = st.bindings := by
  cases h
  rfl

theorem resolve_ok {u : Ty} (h : resolve env t span st = .ok u st') : st' = st ∧ t.resolve env.aliases = .ok u := by
  cases hresolve : t.resolve env.aliases with
  | ok v =>
    rw [resolve, hresolve] at h
    cases h
    exact ⟨rfl, rfl⟩
  | error fault =>
    rw [resolve, hresolve] at h
    cases h

theorem resolve_of_ok {u : Ty} (h : t.resolve env.aliases = .ok u) : resolve env t span st = .ok u st := by
  rw [resolve, h]
  rfl

theorem declared_ok {type? declared : Option Ty} (h : type?.mapM (resolve env · span) st = .ok declared st') :
    st' = st ∧ ∀ d ∈ type?, ∃ u ∈ declared, d.resolve env.aliases = .ok u := by
  cases type? with
  | none =>
    cases h
    exact ⟨rfl, fun d hd => absurd hd (Option.not_mem_none d)⟩
  | some d =>
    have hmap : (resolve env d span >>= fun u => pure (some u)) st = .ok declared st' := h
    cases hresolve : resolve env d span st with
    | ok u st1 =>
      rw [bind_of_ok hresolve] at hmap
      cases hmap
      obtain ⟨hst, hu⟩ := resolve_ok hresolve
      refine ⟨hst, ?_⟩
      rintro _ ⟨⟩
      exact ⟨u, rfl, hu⟩
    | error e st1 =>
      simp only [Bind.bind, EStateM.bind, hresolve] at hmap
      cases hmap

/-! ## Patterns that inference accepts -/

/-- The monotypes that solve a later state solve an earlier one, and the type found on the way stands for monotypes
of `P` under them. -/
def AgreesOn (st : CheckState) (P : Mono → Prop) (u : Ty) (st' : CheckState) : Prop :=
  ∀ θ, Solves θ st'.bindings → Solves θ st.bindings ∧ P (u.under θ)

/-- A type written on a compound pattern is unified with the type found inside. -/
theorem declared_unify_agrees {type? declared : Option Ty} {u : Ty} {P F : Mono → Prop} {st0 : CheckState}
    (hst : st.Sound List.Nodup) (hu : u.Below List.Nodup st.nextHole) (hsolid : ∀ d ∈ declared, d.Solid List.Nodup)
    (hdeclared : ∀ d ∈ type?, ∃ v ∈ declared, d.resolve env.aliases = .ok v) (hP : AgreesOn st0 P u st)
    (hF : ∀ τ : Mono, τ.AgreesWith env.aliases type? → P τ → F τ) (binds : List (String × Ty)) :
    Keeps List.Nodup (match declared with
      | some d => do
        let _ ← unify d u span
        pure (u, binds)
      | _ => pure (u, binds)) st fun r st' => AgreesOn st0 F r.1 st' := by
  cases declared with
  | none =>
    refine keeps_pure hst fun θ hθ => ⟨(hP θ hθ).1, hF _ (fun d hd => ?_) (hP θ hθ).2⟩
    obtain ⟨_, hnone, _⟩ := hdeclared d hd
    cases hnone
  | some v =>
    refine ((unify_keeps hst ((hsolid v rfl).below _) hu).and fun _ _ => id).bind ?_
    intro _ st1 hst1 _ hunify
    refine keeps_pure hst1 fun θ hθ => ?_
    obtain ⟨hsolves, hunder⟩ := under_eq_of_unify hst.layered hunify.2 hθ
    refine ⟨(hP θ hsolves).1, hF _ (fun d hd => ?_) (hP θ hsolves).2⟩
    obtain ⟨_, ⟨⟩, hresolve⟩ := hdeclared d hd
    exact ⟨v, hresolve, ((hsolid v rfl).noHoles.under_eq θ).symm.trans hunder⟩

mutual

theorem inferPattern_fits {env : TypeEnv} {st : CheckState} : ∀ p : Pattern, p.AllTypes (Ty.Solid List.Nodup) →
    st.Sound List.Nodup → env.Below List.Nodup st.nextHole → Keeps List.Nodup (inferPattern env p) st fun r st' =>
      AgreesOn st (p.Fits env.aliases) r.1 st'
  | .wildcard span none, hp, hst, henv | .var span name none, hp, hst, henv => by
    unfold inferPattern
    refine ((fresh_keeps hst).and fun _ _ => bindings_fresh).bind fun u st1 hst1 _ hu => keeps_pure hst1 ?_
    intro θ hθ
    refine ⟨hu.2 ▸ hθ, ?_⟩
    unfold Pattern.Fits
    exact fun d hd => absurd hd (Option.not_mem_none d)
  | .wildcard span (some d), hp, hst, henv | .var span name (some d), hp, hst, henv => by
    unfold inferPattern
    refine ((resolve_keeps hst henv (hp d rfl)).and fun _ _ => resolve_ok).bind ?_
    rintro u _ hst1 - ⟨hu, rfl, hresolve⟩
    refine keeps_pure hst1 fun θ hθ => ⟨hθ, ?_⟩
    unfold Pattern.Fits
    rintro _ ⟨⟩
    exact ⟨u, hresolve, (hu.noHoles.under_eq θ).symm⟩
  | .paren span inner type?, hp, hst, henv => by
    unfold inferPattern
    refine ((declared_keeps hst henv hp.1).and fun _ _ => declared_ok).bind ?_
    rintro declared _ hst1 - ⟨hsolid, rfl, hdeclared⟩
    have hinner := inferPattern_fits inner hp.2 hst henv
    refine ((inferPattern_keeps hst henv inner hp.2).and fun r st' h => (hinner.result r st' h).2).bind ?_
    rintro r st2 hst2 - ⟨⟨hr, -⟩, hfits⟩
    refine declared_unify_agrees hst2 hr hsolid hdeclared hfits (fun τ hagrees hτ => ?_) r.2
    unfold Pattern.Fits
    exact ⟨hagrees, hτ⟩
  | .tuple span elems type?, hp, hst, henv => by
    unfold inferPattern
    refine ((declared_keeps hst henv hp.1).and fun _ _ => declared_ok).bind ?_
    rintro declared _ hst1 - ⟨hsolid, rfl, hdeclared⟩
    have helems := inferPatterns_fits elems hp.2 hst henv
    refine ((inferPatterns_keeps hst henv elems hp.2).and fun r st' h => (helems.result r st' h).2).bind ?_
    rintro r st2 hst2 - ⟨⟨hr, -⟩, hfits⟩
    have htuple : (Ty.tuple r.1).Below List.Nodup st2.nextHole := .con hr
    have hshape : AgreesOn _ (fun τ => ∃ τs, τ = .tuple τs ∧ Pattern.FitsList env.aliases elems τs) (.tuple r.1) st2 :=
      fun θ hθ => ⟨(hfits θ hθ).1, _, under_tuple θ r.1, (hfits θ hθ).2⟩
    refine declared_unify_agrees hst2 htuple hsolid hdeclared hshape (fun τ hagrees hτ => ?_) r.2
    unfold Pattern.Fits
    exact ⟨hagrees, hτ⟩

theorem inferPatterns_fits {env : TypeEnv} {st : CheckState} : ∀ ps : List Pattern,
    Pattern.AllTypesList (Ty.Solid List.Nodup) ps → st.Sound List.Nodup → env.Below List.Nodup st.nextHole →
    Keeps List.Nodup (inferPatterns env ps) st fun r st' => ∀ θ, Solves θ st'.bindings →
      Solves θ st.bindings ∧ Pattern.FitsList env.aliases ps (r.1.map (under θ))
  | [], _, hst, _ => by
    unfold inferPatterns
    exact keeps_pure hst fun θ hθ => ⟨hθ, by simp [Pattern.FitsList]⟩
  | p :: ps, hps, hst, henv => by
    unfold inferPatterns
    refine (inferPattern_fits p hps.1 hst henv).bind fun r st1 hst1 hle1 hfits => ?_
    refine (inferPatterns_fits ps hps.2 hst1 (henv.mono hle1)).bind fun r' st2 hst2 _ hfits' => keeps_pure hst2 ?_
    intro θ hθ
    obtain ⟨hsolves, hrest⟩ := hfits' θ hθ
    obtain ⟨hsolves, hfirst⟩ := hfits θ hsolves
    refine ⟨hsolves, ?_⟩
    unfold Pattern.FitsList
    exact ⟨hfirst, hrest⟩

end

/-! ## Patterns that fit -/

/-- The computation succeeds, and monotypes for the holes it introduces go with its result. -/
def Achieves (S : Bindings → Prop) (x : Check α) (st : CheckState) (θ : Nat → Mono)
    (Q : α → CheckState → (Nat → Mono) → Prop) : Prop :=
  ∃ a st' θ', x st = .ok a st' ∧ st.Leads S θ st' θ' ∧ Q a st' θ'

variable {S : Bindings → Prop}

section
variable {x : Check α} {f : α → Check β} {Q : α → CheckState → (Nat → Mono) → Prop}
  {Q' : β → CheckState → (Nat → Mono) → Prop}

theorem Achieves.bind (h : Achieves S x st θ Q)
    (hf : ∀ a st' θ', st.Leads S θ st' θ' → Q a st' θ' → Achieves S (f a) st' θ' Q') :
    Achieves S (x >>= f) st θ Q' := by
  obtain ⟨a, st1, θ1, hx, hl, ha⟩ := h
  obtain ⟨b, st2, θ2, hb, hl', hQ'⟩ := hf a st1 θ1 hl ha
  refine ⟨b, st2, θ2, ?_, hl.trans hl', hQ'⟩
  rw [bind_of_ok hx]
  exact hb

theorem Achieves.keeping {R : List String → Prop} {P : α → CheckState → Prop} (h : Achieves S x st θ Q)
    (hkeeps : Keeps R x st P) : Achieves S x st θ fun a st' θ' => Q a st' θ' ∧ P a st' := by
  obtain ⟨a, st', θ', hx, hl, hQ⟩ := h
  exact ⟨a, st', θ', hx, hl, hQ, (hkeeps.result a st' hx).2⟩

theorem achieves_pure {a : α} (hst : st.Live S θ) (h : Q a st θ) : Achieves S (pure a) st θ Q :=
  ⟨a, st, θ, rfl, .refl hst, h⟩

end

/-- A new hole can stand for anything. -/
theorem fresh_achieves (hst : st.Live S θ) (τ : Mono) :
    Achieves S fresh st θ fun t st' θ' => t.Below List.Nodup st'.nextHole ∧ t.under θ' = τ := by
  have hagree : ∀ i, i < st.nextHole → (if i = st.nextHole then τ else θ i) = θ i :=
    fun i hi => if_neg (Nat.ne_of_lt hi)
  have hsound : (stateAfter fresh st).Sound List.Nodup := (fresh_keeps hst.sound).throughout.last
  refine ⟨.hole st.nextHole, _, fun i => if i = st.nextHole then τ else θ i, rfl,
    ⟨⟨hsound, hst.known, fun c hc => ?_⟩, Nat.le_succ _, hagree⟩, .hole (Nat.lt_succ_self _), if_pos rfl⟩
  obtain ⟨hlt, hbelow⟩ := hst.sound.bound c hc
  exact (hagree c.1 hlt).trans ((hst.solves c hc).trans (hbelow.under_eq hagree).symm)

/-- Types that stand for one monotype are unified. -/
theorem unify_achieves (hst : st.Live S θ) (ha : a.Below List.Nodup st.nextHole)
    (hb : b.Below List.Nodup st.nextHole) (h : a.under θ = b.under θ) (hS : S (Ty.unify st.bindings a b).1) :
    Achieves S (unify a b span) st θ fun _ _ θ' => θ' = θ := by
  have hdistinct : ∀ c ∈ st.bindings, c.2.Distinct := fun c hc => (hst.sound.bound c hc).2.distinct
  obtain ⟨bs, hbs, hsolves⟩ := Ty.unify_complete hdistinct ha.distinct hb.distinct hst.solves h
  have hrun : unify a b span st = .ok () { st with bindings := bs } := by
    simp only [unify, Bind.bind, EStateM.bind, get_eq, set_eq, hbs]
    rfl
  have hsound := (unify_keeps hst.sound ha hb).sound_of_ok hrun
  rw [hbs] at hS
  exact ⟨(), _, θ, hrun, ⟨⟨hsound, hS, hsolves⟩, Nat.le_refl _, fun _ _ => rfl⟩, rfl⟩

theorem resolve_achieves (hst : st.Live S θ) (henv : env.Below List.Nodup st.nextHole) {d : Ty}
    (hd : d.Solid List.Nodup) (h : τ.AgreesWith env.aliases (some d)) :
    Achieves S (resolve env d span) st θ fun u _ _ => u.Solid List.Nodup ∧ ∀ θ, u.under θ = τ := by
  obtain ⟨u, hu, rfl⟩ := h d rfl
  have hsolid : u.Solid List.Nodup := resolve_every henv.aliases hd hu
  exact ⟨u, st, θ, resolve_of_ok hu, .refl hst, hsolid, hsolid.noHoles.under_eq⟩

theorem declared_achieves (hst : st.Live S θ) (henv : env.Below List.Nodup st.nextHole) {type? : Option Ty}
    (htypes : ∀ d ∈ type?, d.Solid List.Nodup) (h : τ.AgreesWith env.aliases type?) :
    Achieves S (type?.mapM (resolve env · span)) st θ fun declared _ _ =>
      ∀ u ∈ declared, u.Solid List.Nodup ∧ ∀ θ, u.under θ = τ := by
  cases type? with
  | none => exact achieves_pure hst fun u hu => absurd hu (Option.not_mem_none u)
  | some d =>
    show Achieves S (do return some (← resolve env d span)) st θ _
    refine (resolve_achieves hst henv (htypes d rfl) h).bind fun u st1 θ1 hl hu => achieves_pure hl.live ?_
    rintro _ ⟨⟩
    exact hu

/-- Nothing more is known of the bindings. -/
abbrev Any (_ : Bindings) : Prop := True

/-- A written type is unified with any type that stands for the same monotype. -/
theorem declared_unify_achieves {declared : Option Ty} {u : Ty} (hst : st.Live Any θ)
    (hu : u.Below List.Nodup st.nextHole) (hdeclared : ∀ d ∈ declared, d.Solid List.Nodup ∧ ∀ θ, d.under θ = τ)
    (hτ : u.under θ = τ) (binds : List (String × Ty)) :
    Achieves Any (match declared with
      | some d => do
        let _ ← unify d u span
        pure (u, binds)
      | _ => pure (u, binds)) st θ fun r _ θ' => r.1.under θ' = τ := by
  cases declared with
  | none => exact achieves_pure hst hτ
  | some d =>
    obtain ⟨hsolid, hd⟩ := hdeclared d rfl
    refine (unify_achieves hst (hsolid.below _) hu ((hd θ).trans hτ.symm) trivial).bind ?_
    rintro ⟨⟩ st1 _ hl rfl
    exact achieves_pure hl.live hτ

mutual

theorem inferPattern_of_fits {env : TypeEnv} {st : CheckState} {θ : Nat → Mono} {τ : Mono} : ∀ p : Pattern,
    p.Fits env.aliases τ → p.AllTypes (Ty.Solid List.Nodup) → st.Live Any θ → env.Below List.Nodup st.nextHole →
    Achieves Any (inferPattern env p) st θ fun r _ θ' => r.1.under θ' = τ
  | .wildcard span none, h, hp, hst, henv | .var span name none, h, hp, hst, henv => by
    unfold inferPattern
    exact (fresh_achieves hst τ).bind fun u st1 θ1 hl hu => achieves_pure hl.live hu.2
  | .wildcard span (some d), h, hp, hst, henv
  | .var span name (some d), h, hp, hst, henv => by
    unfold Pattern.Fits at h
    unfold inferPattern
    exact (resolve_achieves hst henv (hp d rfl) h).bind fun u st1 θ1 hl hu => achieves_pure hl.live (hu.2 θ1)
  | .paren span inner type?, h, hp, hst, henv => by
    unfold Pattern.Fits at h
    unfold inferPattern
    refine (declared_achieves hst henv hp.1 h.1).bind fun declared st1 θ1 hl1 hdeclared => ?_
    have henv1 := henv.mono hl1.le
    refine ((inferPattern_of_fits inner h.2 hp.2 hl1.live henv1).keeping
      (inferPattern_keeps hl1.live.sound henv1 inner hp.2)).bind ?_
    rintro r st2 θ2 hl2 ⟨hτ, hr, -⟩
    exact declared_unify_achieves hl2.live hr hdeclared hτ r.2
  | .tuple span elems type?, h, hp, hst, henv => by
    unfold Pattern.Fits at h
    obtain ⟨hagrees, τs, rfl, hfits⟩ := h
    unfold inferPattern
    refine (declared_achieves hst henv hp.1 hagrees).bind fun declared st1 θ1 hl1 hdeclared => ?_
    have henv1 := henv.mono hl1.le
    refine ((inferPatterns_of_fits elems hfits hp.2 hl1.live henv1).keeping
      (inferPatterns_keeps hl1.live.sound henv1 elems hp.2)).bind ?_
    rintro r st2 θ2 hl2 ⟨rfl, hr, -⟩
    exact declared_unify_achieves hl2.live (.con hr) hdeclared (under_tuple θ2 r.1) r.2

theorem inferPatterns_of_fits : ∀ (ps : List Pattern) {env : TypeEnv} {st : CheckState} {θ : Nat → Mono}
    {τs : List Mono}, Pattern.FitsList env.aliases ps τs → Pattern.AllTypesList (Ty.Solid List.Nodup) ps →
    st.Live Any θ → env.Below List.Nodup st.nextHole →
    Achieves Any (inferPatterns env ps) st θ fun r _ θ' => r.1.map (under θ') = τs
  | [], env, st, θ, [], h, hps, hst, henv => by
    unfold inferPatterns
    exact achieves_pure hst rfl
  | p :: ps, env, st, θ, τ :: τs, h, hps, hst, henv => by
    unfold Pattern.FitsList at h
    unfold inferPatterns
    refine ((inferPattern_of_fits p h.1 hps.1 hst henv).keeping (inferPattern_keeps hst.sound henv p hps.1)).bind ?_
    rintro r st1 θ1 hl1 ⟨hτ, hr, -⟩
    refine (inferPatterns_of_fits ps h.2 hps.2 hl1.live (henv.mono hl1.le)).bind fun r' st2 θ2 hl2 hτs => ?_
    refine achieves_pure hl2.live ?_
    rw [List.map_cons, hτs, hr.under_eq hl2.agree, hτ]
  | [], env, st, θ, _ :: _, h, hps, hst, henv => by
    unfold Pattern.FitsList at h
    exact h.elim
  | _ :: _, env, st, θ, [], h, hps, hst, henv => by
    unfold Pattern.FitsList at h
    exact h.elim

end

/-! ## Binds -/

/-- Infer a pattern whose type has to be that of a value. -/
def inferTaken (env : TypeEnv) (span : Option Span) (p : Pattern) (value : Ty) : Check (List (String × Ty)) := do
  let (t, binds) ← inferPattern env p
  unify t value span
  return binds

/-- Whatever solves the bindings, the type stands for the monotype. -/
def KnownAs (st : CheckState) (value : Ty) (τ : Mono) : Prop :=
  ∀ θ, Solves θ st.bindings → value.under θ = τ

theorem inferTaken_iff {p : Pattern} {value : Ty} (hp : p.AllTypes (Ty.Solid List.Nodup))
    (hst : st.Sound List.Nodup) (henv : env.Below List.Nodup st.nextHole)
    (hvalue : value.Below List.Nodup st.nextHole) (hknown : KnownAs st value τ) :
    (∃ binds st', inferTaken env span p value st = .ok binds st') ↔ p.Fits env.aliases τ := by
  have hkeeps := inferPattern_keeps hst henv p hp
  constructor
  · rintro ⟨binds, st', h⟩
    have hfits : Keeps List.Nodup (inferTaken env span p value) st fun _ _ => p.Fits env.aliases τ := by
      have hagrees := inferPattern_fits p hp hst henv
      refine (hkeeps.and fun r st1 hr => (hagrees.result r st1 hr).2).bind ?_
      rintro ⟨u, binds⟩ st1 hst1 hle ⟨⟨hu, -⟩, hagrees⟩
      refine ((unify_keeps hst1 hu (hvalue.mono hle)).and fun _ _ => id).bind fun _ st2 hst2 _ hunify => ?_
      -- what solves the last state makes the pattern's type the one that is known
      obtain ⟨θ, hθ⟩ := hst2.layered.exists_solves
      obtain ⟨hθ1, hunder⟩ := under_eq_of_unify hst1.layered hunify.2 hθ
      obtain ⟨hθ0, hfits⟩ := hagrees θ hθ1
      rw [hunder, hknown θ hθ0] at hfits
      exact keeps_pure hst2 hfits
    exact (hfits.result binds st' h).2
  · intro h
    obtain ⟨θ, hθ⟩ := hst.layered.exists_solves
    have hachieves : Achieves Any (inferTaken env span p value) st θ fun _ _ _ => True := by
      refine ((inferPattern_of_fits p h hp ⟨hst, trivial, hθ⟩ henv).keeping hkeeps).bind ?_
      rintro ⟨u, binds⟩ st1 θ1 hl ⟨hτ, hu, -⟩
      have hunder : u.under θ1 = value.under θ1 := by
        rw [hvalue.under_eq hl.agree, hknown θ hθ]
        exact hτ
      refine (unify_achieves hl.live hu (hvalue.mono hl.le) hunder trivial).bind fun _ st2 θ2 hl2 _ => ?_
      exact achieves_pure hl2.live trivial
    obtain ⟨binds, st', -, hrun, -⟩ := hachieves
    exact ⟨binds, st', hrun⟩

/-- The type of the result of a block that runs in a context. -/
def inferResult (env : TypeEnv) (context : Ty) (span : Span) (e : Expr) : Check Ty := do
  let t ← inferExpr env e
  let value ← fresh
  unify (.block context value) t span
  return value

/-- The type of the result of a bind in a block, and the types of the names it binds. -/
def inferBind (env : TypeEnv) (context : Ty) (span : Span) (p : Pattern) (e : Expr) :
    Check (Ty × List (String × Ty)) := do
  let value ← inferResult env context span e
  return (value, ← inferTaken env span p value)

theorem inferBody_bind (env : TypeEnv) (context : Ty) (span : Span) (p : Pattern) (e : Expr) (rest : List Stmt) :
    inferBody env context (.bind span p e :: rest) = (do
      let (value, binds) ← inferBind env context span p e
      if rest.isEmpty then
        if p.isWildcard then return value else fail .lastStatement span
      else inferBody (bindMono env binds) context rest) := by
  simp [inferBody, inferBind, inferResult, inferTaken]

/-- At this point of a block, the expression gives a block that can run in the same context, with a result of type
`t`. -/
structure GivesResult (env : TypeEnv) (context : Ty) (st : CheckState) (span : Span) (e : Expr) (t : Ty) : Prop where
  sound : st.Sound List.Nodup
  envBelow : env.Below List.Nodup st.nextHole
  contextBelow : context.Below List.Nodup st.nextHole
  result : ∃ found st1 c st2, inferExpr env e st = .ok found st1 ∧
    Ty.applyBindings st1.bindings found = .block c t ∧ unify context c span st1 = .ok () st2

/-- The type of the result is known from then on. -/
theorem GivesResult.exists_known {context : Ty} {span : Span} {e : Expr} (h : GivesResult env context st span e t)
    (he : e.AllTypes (Ty.Solid List.Nodup)) (ht : t.NoHoles) :
    ∃ value st', inferResult env context span e st = .ok value st' ∧ st'.Sound List.Nodup ∧
      st.nextHole ≤ st'.nextHole ∧ value.Below List.Nodup st'.nextHole ∧ KnownAs st' value t.shape := by
  obtain ⟨hst, henv, hcontext, found, st1, c, st', hinfer, hblock, hunify⟩ := h
  have hkeeps := inferExpr_keeps hst henv (fun _ => id) e he
  obtain ⟨hle, hfound⟩ := hkeeps.result found st1 hinfer
  have hst1 := hkeeps.sound_of_ok hinfer
  have hresult : ∀ {θ}, Solves θ st1.bindings → found.under θ = .block (c.under θ) t.shape := by
    intro θ hθ
    rw [← Ty.under_applyBindings hθ, hblock, under_block, ht.under_eq]
  have hc : c.Below List.Nodup st1.nextHole := by
    have happlied : (Ty.applyBindings st1.bindings found).Below List.Nodup st1.nextHole :=
      hfound.applyBindings fun b hb => (hst1.bound b hb).2
    rw [hblock] at happlied
    cases happlied with
    | con hargs => exact hargs c List.mem_cons_self
  -- the contexts agree, so that the new hole can stand for the type of the result
  have hcontext1 := hcontext.mono hle
  obtain ⟨θ, hθ⟩ := ((unify_keeps hst1 hcontext1 hc).sound_of_ok hunify).layered.exists_solves
  obtain ⟨hθ, hcontexts⟩ := under_eq_of_unify hst1.layered hunify hθ
  obtain ⟨value, st2, θ2, hfresh, hl2, hvalue, hshape⟩ :=
    fresh_achieves (S := Any) ⟨hst1, trivial, hθ⟩ t.shape
  have hblock2 : (Ty.block context value).Below List.Nodup st2.nextHole := by
    refine .con (List.forall_mem_cons.2 ⟨hcontext1.mono hl2.le, ?_⟩)
    exact List.forall_mem_singleton.2 hvalue
  have hunder : (Ty.block context value).under θ2 = found.under θ2 := by
    rw [under_block, hshape, hcontext1.under_eq hl2.agree, hcontexts, hfound.under_eq hl2.agree, hresult hθ]
  obtain ⟨⟨⟩, st3, _, hrun, hl3, rfl⟩ := unify_achieves hl2.live hblock2 (hfound.mono hl2.le) hunder trivial
  refine ⟨value, st3, ?_, hl3.live.sound, hle.trans (hl2.le.trans hl3.le), hvalue.mono hl3.le, ?_⟩
  · unfold inferResult
    rw [bind_of_ok hinfer, bind_of_ok hfresh, bind_of_ok hrun]
    rfl
  · intro θ' hθ'
    obtain ⟨hsolves, heq⟩ := under_eq_of_unify hl2.live.sound.layered hrun hθ'
    rw [bindings_fresh hfresh] at hsolves
    rw [under_block, hresult hsolves] at heq
    have hargs := (Mono.con.inj heq).2
    simp only [List.cons.injEq, and_true] at hargs
    exact hargs.2

/-- A bind in a block, of an expression whose result has a known type, is accepted if the pattern fits the type, and
only then. -/
theorem inferBind_iff {context : Ty} {span : Span} {p : Pattern} {e : Expr} (hp : p.AllTypes (Ty.Solid List.Nodup))
    (he : e.AllTypes (Ty.Solid List.Nodup)) (ht : t.NoHoles) (h : GivesResult env context st span e t) :
    (∃ r st', inferBind env context span p e st = .ok r st') ↔ p.Fits env.aliases t.shape := by
  obtain ⟨value, st1, hresult, hst1, hle, hvalue, hknown⟩ := h.exists_known he ht
  unfold inferBind
  rw [bind_of_ok hresult, exists_ok_bind_pure]
  exact inferTaken_iff hp hst1 (h.envBelow.mono hle) hvalue hknown

end Check

end VeriScript
