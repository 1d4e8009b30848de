import VeriScript.Proofs.Typing.Generalize
import VeriScript.Proofs.Typing.Groups

/-!
# Variables of the environment in schemas

Generalisation quantifies every named variable of a type.  A variable of the environment among them, such as one in
the annotation of a parameter, is then no longer the same variable: a use of the schema may give it another type.

* `TypeEnv.FreeVar` — a variable that the environment does not quantify.
* `Schema.UsedAt` — the types at which a schema can be used.
* `TypeEnv.Admits` — the types that keep the holes and the variables of the environment as they are.
* `Check.generalize_admits_iff` — a schema is used at these types only if, and only if, its type has no variable of
  the environment.
-/

namespace VeriScript

open Ty (Distinct)
open Check (keptHoles schemaOf)

/-- The variable occurs in the environment outside of the variables of its schema, perhaps in what a hole is bound
to. -/
def TypeEnv.FreeVar (env : TypeEnv) (bs : Bindings) (x : String) : Prop :=
  ∃ e ∈ env.types, (x ∈ e.2.type.varNames ∧ x ∉ e.2.vars) ∨
    ∃ i ∈ e.2.type.holes, x ∈ (Ty.applyBindings bs (.hole i)).varNames

/-- The schema can be used at a type where holes, and variables that are not its own, stand for given ones. -/
def Schema.UsedAt (s : Schema) (θ : Nat → Mono) (ρ : String → Mono) (τ : Mono) : Prop :=
  ∃ ρ', (∀ x, x ∉ s.vars → ρ' x = ρ x) ∧ s.type.denote θ ρ' = τ

/-- The type can stand for a monotype where holes and variables of the environment stand for given ones. -/
def TypeEnv.Admits (env : TypeEnv) (bs : Bindings) (t : Ty) (θ : Nat → Mono) (ρ : String → Mono) (τ : Mono) : Prop :=
  ∃ θ' ρ', (∀ i ∈ keptHoles env bs, θ' i = θ i) ∧ (∀ x, env.FreeVar bs x → ρ' x = ρ x) ∧
    (Ty.applyBindings bs t).denote θ' ρ' = τ

instance : Nontrivial Mono := ⟨.var "a", .var "b", fun h => absurd (Mono.var.inj h) (by decide)⟩

namespace Check

variable {env : TypeEnv} {bs : Bindings} {t : Ty} {θ : Nat → Mono} {ρ : String → Mono} {τ : Mono} {x : String}

/-- The variables of a schema are those of its type, and names for holes that are not among them. -/
theorem vars_schemaOf (env : TypeEnv) (bs : Bindings) (t : Ty) :
    ∃ names, (schemaOf env bs t).vars = (Ty.applyBindings bs t).varNames ++ names ∧ names.Nodup ∧
      (∀ x ∈ names, x ∉ (Ty.applyBindings bs t).varNames) ∧
      names.length = ((Ty.applyBindings bs t).holes.filter (· ∉ keptHoles env bs)).length := by
  refine ⟨_, rfl, freshNames_nodup, fun x hx => (mem_freshNames hx).1, ?_⟩
  rw [length_freshNames]
  simp

/-- A schema is used at every type that keeps the holes of the environment: nothing is asked of the variables. -/
theorem usedAt_schemaOf_iff :
    (schemaOf env bs t).UsedAt θ ρ τ ↔
      ∃ θ' ρ', (∀ i ∈ keptHoles env bs, θ' i = θ i) ∧ (Ty.applyBindings bs t).denote θ' ρ' = τ := by
  constructor
  · rintro ⟨ρ', -, hτ⟩
    obtain ⟨θ', hkept, heq⟩ := denote_generalizeOver θ ρ' (keptHoles env bs) (Ty.applyBindings bs t)
    exact ⟨θ', ρ', hkept, heq.symm.trans hτ⟩
  · rintro ⟨θ', ρ', hkept, hτ⟩
    obtain ⟨ρ1, hρ1⟩ := generalizeOver_complete (t := Ty.applyBindings bs t) ρ' fun i _ hi => hkept i hi
    -- other variables do not occur in the schema
    refine ⟨fun y => if y ∈ (schemaOf env bs t).vars then ρ1 y else ρ y, fun y hy => if_neg hy, ?_⟩
    refine .trans (Ty.denote_congr (fun _ _ => rfl) fun y hy => ?_) (hρ1.trans hτ)
    exact if_pos (generalizeOver_closed _ _ y hy)

theorem usedAt_of_admits (h : env.Admits bs t θ ρ τ) : (schemaOf env bs t).UsedAt θ ρ τ := by
  obtain ⟨θ', ρ', hkept, -, hτ⟩ := h
  exact usedAt_schemaOf_iff.2 ⟨θ', ρ', hkept, hτ⟩

theorem admits_of_usedAt (hfree : ∀ x, env.FreeVar bs x → x ∉ (Ty.applyBindings bs t).varNames)
    (h : (schemaOf env bs t).UsedAt θ ρ τ) : env.Admits bs t θ ρ τ := by
  obtain ⟨θ', ρ', hkept, hτ⟩ := usedAt_schemaOf_iff.1 h
  classical
  refine ⟨θ', fun x => if env.FreeVar bs x then ρ x else ρ' x, hkept, fun x hx => if_pos hx, ?_⟩
  refine .trans (Ty.denote_congr (fun _ _ => rfl) fun x hx => ?_) hτ
  exact if_neg fun hmem => hfree x hmem hx

/-- A variable of the environment that occurs in the type stands for another type in some use of the schema. -/
theorem exists_usedAt_not_admits (hz : (Ty.applyBindings bs t).Distinct) (hx : env.FreeVar bs x)
    (hmem : x ∈ (Ty.applyBindings bs t).varNames) (θ : Nat → Mono) (ρ : String → Mono) :
    ∃ τ, (schemaOf env bs t).UsedAt θ ρ τ ∧ ¬ env.Admits bs t θ ρ τ := by
  obtain ⟨υ, hυ⟩ := exists_ne (ρ x)
  refine ⟨(Ty.applyBindings bs t).denote θ fun _ => υ, usedAt_schemaOf_iff.2 ⟨θ, _, fun _ _ => rfl, rfl⟩, ?_⟩
  rintro ⟨θ', ρ', -, hrigid, heq⟩
  have hother : ρ' x = υ := (hz.eq_of_denote_eq heq).2 x hmem
  exact hυ (hother.symm.trans (hrigid x hx))

/-- Generalisation quantifies all named variables of the type, also those of the environment, and different names for
the holes that the environment does not share.  The schema is used at all types that keep the holes and variables of
the environment; at these only if, and only if, no variable of the environment occurs in the type. -/
theorem generalize_admits_iff (env : TypeEnv) (st : CheckState) (t : Ty)
    (hbindings : ∀ b ∈ st.bindings, b.2.Distinct) (ht : t.Distinct) :
    ∃ s names, generalize env t st = .ok s st ∧ s.vars = (Ty.applyBindings st.bindings t).varNames ++ names ∧
      names.Nodup ∧ (∀ x ∈ names, x ∉ (Ty.applyBindings st.bindings t).varNames) ∧
      names.length = ((Ty.applyBindings st.bindings t).holes.filter (· ∉ keptHoles env st.bindings)).length ∧
      ∀ θ ρ, (∀ τ, env.Admits st.bindings t θ ρ τ → s.UsedAt θ ρ τ) ∧
        ((∀ τ, s.UsedAt θ ρ τ → env.Admits st.bindings t θ ρ τ) ↔
          ∀ x, env.FreeVar st.bindings x → x ∉ (Ty.applyBindings st.bindings t).varNames) := by
  obtain ⟨names, hvars, hnodup, hnew, hlength⟩ := vars_schemaOf env st.bindings t
  refine ⟨_, names, generalize_eq env st t, hvars, hnodup, hnew, hlength, fun θ ρ => ⟨?kept, ?rigid, ?free⟩⟩
  case kept => exact fun τ => usedAt_of_admits
  case free => exact fun hfree τ => admits_of_usedAt hfree
  case rigid =>
    intro hadmits x hx hmem
    have hz : (Ty.applyBindings st.bindings t).Distinct := Ty.Every.applyBindings ht hbindings
    obtain ⟨τ, hused, hnot⟩ := exists_usedAt_not_admits hz hx hmem θ ρ
    exact hnot (hadmits τ hused)

/-- The type of `y` was found to be `a` later on. -/
def parameterEnv : TypeEnv := ⟨[("y", .mono (.hole 1))], []⟩

def parameterState : CheckState := ⟨[(1, .var "a")], 2, []⟩

/-- A pair with `y` in it can be used with a `y` of any type. -/
theorem generalize_admits_iff_parameter :
    (∀ b ∈ parameterState.bindings, b.2.Distinct) ∧ (Ty.tuple [.hole 0, .hole 1]).Distinct ∧
      parameterEnv.FreeVar parameterState.bindings "a" ∧
      generalize parameterEnv (.tuple [.hole 0, .hole 1]) parameterState =
        .ok ⟨["a", "b"], .tuple [.var "b", .var "a"]⟩ parameterState ∧
      ∀ θ ρ, ∃ τ, Schema.UsedAt ⟨["a", "b"], .tuple [.var "b", .var "a"]⟩ θ ρ τ ∧
        ¬ parameterEnv.Admits parameterState.bindings (.tuple [.hole 0, .hole 1]) θ ρ τ := by
  have hbindings : ∀ b ∈ parameterState.bindings, b.2.Distinct := List.forall_mem_singleton.2 .var
  have hpair : (Ty.tuple [.hole 0, .hole 1]).Distinct :=
    .con (List.forall_mem_cons.2 ⟨.hole trivial, List.forall_mem_singleton.2 (.hole trivial)⟩)
  have hfree : parameterEnv.FreeVar parameterState.bindings "a" :=
    ⟨_, List.mem_singleton.2 rfl, .inr ⟨1, by decide, by decide⟩⟩
  have hrun : generalize parameterEnv (.tuple [.hole 0, .hole 1]) parameterState =
      .ok ⟨["a", "b"], .tuple [.var "b", .var "a"]⟩ parameterState := rfl
  obtain ⟨s, names, hs, -, -, -, -, huses⟩ := generalize_admits_iff parameterEnv parameterState _ hbindings hpair
  cases hrun.symm.trans hs
  refine ⟨hbindings, hpair, hfree, hrun, fun θ ρ => ?_⟩
  have hnot := mt (huses θ ρ).2.1 fun h => h "a" hfree (by decide)
  simpa using hnot

/-- `\(x : a) -> let y = x in (y : Int)` -/
def coercion : Expr :=
  let at1 := Span.point "script" 1 1
  .lam at1 (.var at1 "x" (some (.var "a")))
    (.letIn at1 (.single at1 (.mk at1 (.var at1 "y" none) (.var at1 "x"))) (.typed at1 (.var at1 "y") .int))

/-- The variable in the annotation of a parameter is quantified by a declaration inside of the function, so that what
is declared has every type. -/
theorem parameter_variable_quantified :
    TypeEnv.FreeVar ⟨[("x", .mono (.var "a"))], []⟩ [] "a" ∧
      generalize ⟨[("x", .mono (.var "a"))], []⟩ (.var "a") .initial = .ok ⟨["a"], .var "a"⟩ .initial ∧
      ∃ st, checkExpr ⟨[], []⟩ coercion .initial = .ok ⟨["a"], .fn (.var "a") .int⟩ st := by
  exact ⟨⟨_, List.mem_singleton.2 rfl, .inl ⟨by decide, by decide⟩⟩, rfl, _, rfl⟩

end Check

end VeriScript
