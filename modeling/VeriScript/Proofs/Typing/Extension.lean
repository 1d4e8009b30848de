import VeriScript.Proofs.Typing.Declarative
import VeriScript.Proofs.Typing.Fitting
import VeriScript.Proofs.Typing.Generalize
import VeriScript.Proofs.Typing.Inference

/-!
# Inference that cannot fail

To show that inference succeeds, monotypes for the holes go along with it: they solve the bindings made so far,
and each step extends them to the holes it introduces.

* `Check.TypeFound` — what inference finds for something that has a monotype.
* `Check.visit_achieves`, `Check.fresh_found`, `Check.instantiate_achieves` — the steps of inference.
* `Check.inferPattern_complete` — patterns that take a monotype.
-/

namespace VeriScript

open Ty (NoVars Solves Solved under Ground)
open TypeEnv (typingsUnder)

/-! ## States -/

/-- A type as inference finds it: no variables, each field of a record once, and holes before the `n`-th. -/
structure Ty.Fit (n : Nat) (t : Ty) : Prop where
  noVars : t.NoVars
  below : t.Below List.Nodup n

/-- A type as it is written: neither holes nor variables, and each field of a record once. -/
structure Ty.Plain (t : Ty) : Prop where
  ground : t.Ground
  solid : t.Solid List.Nodup

/-- The environment is closed and all its holes come before the `n`-th. -/
structure TypeEnv.Ready (n : Nat) (env : TypeEnv) : Prop where
  closed : env.Closed
  below : env.Below List.Nodup n

section
variable {n m : Nat} {t u : Ty} {θ θ' θ1 : Nat → Mono} {st st' st1 : CheckState} {env : TypeEnv}

namespace Ty

theorem Fit.mono (h : t.Fit n) (hle : n ≤ m) : t.Fit m := ⟨h.noVars, h.below.mono hle⟩

theorem Fit.under_eq (h : t.Fit n) (hagree : ∀ i, i < n → θ' i = θ i) : t.under θ' = t.under θ :=
  h.below.under_eq hagree

theorem Plain.fit (h : t.Plain) (n : Nat) : t.Fit n := ⟨h.ground.2, h.solid.below n⟩

theorem fit_con {name : String} {args : List Ty} (h : ∀ a ∈ args, a.Fit n) : (Ty.con name args).Fit n :=
  ⟨Check.noVars_con.2 fun a ha => (h a ha).noVars, .con fun a ha => (h a ha).below⟩

theorem fit_record {fields : List (String × Ty)} (hnames : (Table.names fields).Nodup)
    (h : ∀ f ∈ fields, f.2.Fit n) : (Ty.record fields).Fit n :=
  ⟨Check.noVars_record.2 fun f hf => (h f hf).noVars, .record hnames fun f hf => (h f hf).below⟩

end Ty

namespace CheckState

theorem Leads.under_eq (h : st.Leads Solved θ st' θ') (ht : t.Fit st.nextHole) : t.under θ' = t.under θ :=
  ht.under_eq h.agree

end CheckState

theorem TypeEnv.Ready.mono (h : env.Ready n) (hle : n ≤ m) : env.Ready m := ⟨h.closed, h.below.mono hle⟩

/-- An environment stands for the same scope as long as its holes do. -/
theorem TypeEnv.Ready.under_eq (h : env.Ready n) (hagree : ∀ i, i < n → θ' i = θ i) : env.under θ' = env.under θ := by
  funext x τ
  refine propext (exists_congr fun s => and_congr_right fun hs => exists_congr fun ρ => ?_)
  rw [Ty.denote_congr (fun i hi => hagree i ?_) fun _ _ => rfl]
  exact (h.below.types _ (Table.mem_of_get? hs)).mem_holes i hi

end

theorem agreesWith_of_ascribes {al : Aliases} {τ : Mono} {type? : Option Ty} (h : ∀ t ∈ type?, Ascribes al t τ) :
    τ.AgreesWith al type? := fun t ht => by
  obtain ⟨u, hu, hτ⟩ := h t ht
  exact ⟨u, hu, hτ _ _⟩

mutual

/-- A pattern fits the monotypes that it takes. -/
theorem Pattern.Takes.fits {al : Aliases} {p : Pattern} {τ : Mono} {bs : Typings} : p.Takes al τ bs → p.Fits al τ
  | .wildcard written => agreesWith_of_ascribes written
  | .var written => agreesWith_of_ascribes written
  | .paren written inner => ⟨agreesWith_of_ascribes written, inner.fits⟩
  | .tuple written elems => ⟨agreesWith_of_ascribes written, _, rfl, elems.fits⟩

theorem Pattern.TakesAll.fits {al : Aliases} {ps : List Pattern} {τs : List Mono} {bs : Typings} :
    Pattern.TakesAll al ps τs bs → Pattern.FitsList al ps τs
  | .nil => trivial
  | .cons head tail => ⟨head.fits, tail.fits⟩

end

mutual

/-- The monotype decides what a pattern gives its names. -/
theorem Pattern.Takes.unique {al : Aliases} {p : Pattern} {τ : Mono} {bs bs' : Typings} : p.Takes al τ bs →
    p.Takes al τ bs' → bs = bs'
  | .wildcard _, .wildcard _ => rfl
  | .var _, .var _ => rfl
  | .paren _ inner, .paren _ inner' => inner.unique inner'
  | .tuple _ elems, .tuple _ elems' => elems.unique elems'

theorem Pattern.TakesAll.unique {al : Aliases} {ps : List Pattern} {τs : List Mono} {bs bs' : Typings} :
    Pattern.TakesAll al ps τs bs → Pattern.TakesAll al ps τs bs' → bs = bs'
  | .nil, .nil => rfl
  | .cons head tail, .cons head' tail' => congrArg₂ _ (head.unique head') (tail.unique tail')

end

namespace Check

variable {st st' : CheckState} {θ : Nat → Mono} {env : TypeEnv} {t u : Ty} {τ : Mono} {span : Option Span}

/-! ## Steps -/

theorem visit_achieves (hst : st.Live Solved θ) (kind : String) :
    Achieves Solved (visit kind) st θ fun _ _ _ => True :=
  ⟨(), _, θ, rfl,
    ⟨⟨⟨hst.sound.layered, hst.sound.bound⟩, hst.known, hst.solves⟩, Nat.le_refl _, fun _ _ => rfl⟩, trivial⟩

/-- What inference finds for something that has a monotype. -/
structure TypeFound (τ : Mono) (t : Ty) (st : CheckState) (θ : Nat → Mono) : Prop where
  fit : t.Fit st.nextHole
  type : t.under θ = τ

theorem TypeFound.after {θ' : Nat → Mono} (h : TypeFound τ t st θ) (hl : st.Leads Solved θ st' θ') :
    TypeFound τ t st' θ' :=
  ⟨h.fit.mono hl.le, (hl.under_eq h.fit).trans h.type⟩

theorem fresh_found (hst : st.Live Solved θ) (τ : Mono) : Achieves Solved fresh st θ (TypeFound τ) := by
  obtain ⟨t, st', θ', hrun, hl, hbelow, hunder⟩ := fresh_achieves hst τ
  exact ⟨t, st', θ', hrun, hl, ⟨((fresh_yields hst.known).of_ok hrun).2, hbelow⟩, hunder⟩

theorem resolve_found (hst : st.Live Solved θ) (henv : env.Ready st.nextHole) (ht : t.Plain)
    (h : Ascribes env.aliases t τ) :
    Achieves Solved (resolve env t span) st θ fun u _ _ => u.Plain ∧ ∀ θ, u.under θ = τ := by
  obtain ⟨u, hu, hτ⟩ := h
  refine ⟨u, st, θ, resolve_of_ok hu, .refl hst, ⟨?_, ?_⟩, fun θ => hτ θ .var⟩
  · exact resolve_ground henv.closed.aliases ht.ground hu
  · exact resolve_every henv.below.aliases ht.solid hu

theorem freshFor_achieves (vars : List String) (hst : st.Live Solved θ) (ρ : String → Mono) :
    Achieves Solved (vars.mapM fun name => do return (name, ← fresh)) st θ fun m st' θ' =>
      m.map (·.1) = vars ∧ ∀ e ∈ m, TypeFound (ρ e.1) e.2 st' θ' := by
  induction vars generalizing st θ with
  | nil => exact achieves_pure hst ⟨rfl, List.forall_mem_nil _⟩
  | cons name vars ih =>
    rw [List.mapM_cons]
    refine Achieves.bind (Q := fun e st' θ' => e.1 = name ∧ TypeFound (ρ name) e.2 st' θ') ?_ ?_
    · exact (fresh_found hst (ρ name)).bind fun t st1 θ1 hl1 ht => achieves_pure hl1.live ⟨rfl, ht⟩
    · rintro ⟨_, t⟩ st1 θ1 hl1 ⟨rfl, ht⟩
      refine (ih hl1.live).bind fun m st2 θ2 hl2 hm => achieves_pure hl2.live ?_
      exact ⟨congrArg (_ :: ·) hm.1, List.forall_mem_cons.2 ⟨ht.after hl2, hm.2⟩⟩

/-- Any instance of a schema can be what its type with new holes stands for. -/
theorem instantiate_achieves {s : Schema} (hst : st.Live Solved θ) (hclosed : ∀ x ∈ s.type.varNames, x ∈ s.vars)
    (hbelow : s.type.Below List.Nodup st.nextHole) (ρ : String → Mono) :
    Achieves Solved (instantiate s) st θ (TypeFound (s.type.denote θ ρ)) := by
  have hyields := (instantiate_yields hst.known hclosed).imp fun t st' h => h.2.1
  have hkeeps := instantiate_keeps hst.sound hbelow
  have hachieves : Achieves Solved (instantiate s) st θ fun t _ θ' => t.under θ' = s.type.denote θ ρ := by
    refine (freshFor_achieves s.vars hst ρ).bind fun m st1 θ1 hl1 hm => achieves_pure hl1.live ?_
    rw [under, Ty.denote_substVars]
    refine Ty.denote_congr (fun i hi => hl1.agree i (hbelow.mem_holes i hi)) fun x hx => ?_
    -- every variable of the type has a new hole
    have hmem : x ∈ m.map (·.1) := hm.1 ▸ hclosed x hx
    obtain ⟨e, he, rfl⟩ := List.mem_map.1 hmem
    obtain ⟨v, hv⟩ := Table.exists_get?_of_mem (List.mem_reverse.2 he)
    rw [hv]
    exact (hm.2 _ (List.mem_reverse.1 (Table.mem_of_get? hv))).type
  obtain ⟨t, st', θ', hrun, hl, hunder⟩ := hachieves
  exact ⟨t, st', θ', hrun, hl, ⟨hyields.of_ok hrun, (hkeeps.result t st' hrun).2⟩, hunder⟩

/-! ## Patterns -/

/-- What inference finds for a pattern that takes a monotype. -/
structure PatternFound (τ : Mono) (bs : Typings) (r : Ty × List (String × Ty)) (st : CheckState) (θ : Nat → Mono) :
    Prop extends TypeFound τ r.1 st θ where
  fitBinds : ∀ b ∈ r.2, b.2.Fit st.nextHole
  binds : typingsUnder θ r.2 = bs

theorem typingsUnder_eq {binds : List (String × Ty)} {θ' : Nat → Mono} {n : Nat} (h : ∀ b ∈ binds, b.2.Fit n)
    (hagree : ∀ i, i < n → θ' i = θ i) : typingsUnder θ' binds = typingsUnder θ binds :=
  List.map_congr_left fun b hb => by rw [(h b hb).under_eq hagree]

theorem inferPattern_complete (p : Pattern) {bs : Typings} (h : p.Takes env.aliases τ bs) (hp : p.AllTypes Ty.Plain)
    (hst : st.Live Solved θ) (henv : env.Ready st.nextHole) :
    Achieves Solved (inferPattern env p) st θ (PatternFound τ bs) := by
  have hsolid := p.allTypes_imp (fun _ => Ty.Plain.solid) hp
  have hground := p.allTypes_imp (fun _ => Ty.Plain.ground) hp
  obtain ⟨r, st', θ', hrun, hl, hτ⟩ := inferPattern_of_fits p h.fits hsolid ⟨hst.sound, trivial, hst.solves⟩ henv.below
  obtain ⟨-, hbelow, hbelowBinds⟩ := (inferPattern_keeps hst.sound henv.below p hsolid).result r st' hrun
  have hsound := (inferPattern_sound henv.closed p hground hst.known).of_ok hrun
  obtain ⟨hreached, hnoVars, hnoVarsBinds, htakes⟩ := hsound
  have htakes := htakes θ' hl.live.solves
  rw [hτ] at htakes
  exact ⟨r, st', θ', hrun, hl.knowing hreached.solved, ⟨⟨hnoVars, hbelow⟩, hτ⟩,
    fun b hb => ⟨hnoVarsBinds b hb, hbelowBinds b hb⟩, htakes.unique h⟩

end Check

end VeriScript
