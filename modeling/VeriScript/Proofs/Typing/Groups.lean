import VeriScript.Proofs.Typing.Patterns

/-!
# Declarations before and after they are generalised

Inference of a declaration finds a type first and generalises it then; of a recursive group it finds the types of
all members first.

* `inferBound`, `inferMemberTypes` — the types before they are generalised.
* `MembersTake` — the patterns of a recursive group take the types of their names.
* `generalizeAll_eq` — generalising types one after another gives the schema of each.
-/

namespace VeriScript

open Ty (NoVars Solves Solved under Ground)
open TypeEnv (typingsUnder)

namespace Check

variable {env : TypeEnv} {st : CheckState}

theorem aliases_bindPattern (env : TypeEnv) (p : Pattern) (s : Schema) :
    (bindPattern env p s).aliases = env.aliases :=
  TypeEnv.aliases_bindAll _ _

theorem aliases_bindMono (env : TypeEnv) (binds : List (String × Ty)) : (bindMono env binds).aliases = env.aliases :=
  TypeEnv.aliases_bindAll _ _

/-- The type of a declaration before it is generalised. -/
def inferBound (env : TypeEnv) : Decl → Check Ty
  | .mk span p body => do
    let t ← inferExpr env body
    let (patternType, _) ← inferPattern env p
    unify patternType t span
    return t

theorem inferDecl_eq (env : TypeEnv) (topLevel : Bool) (d : Decl) :
    inferDecl env topLevel d = (do
      let t ← inferBound env d
      if topLevel then defaultContext t d.span
      generalize env t) := by
  cases d
  simp [inferDecl, inferBound, Decl.span]

/-- The types of the members of a recursive group before they are generalised. -/
def inferMemberTypes (env : TypeEnv) (ds : List Decl) : Check (List Ty) := do
  let (ts, inner) ← inferMembers env ds env
  inferBodies inner ds ts
  return ts

theorem inferGroup_recursive_eq (env : TypeEnv) (span : Span) (ds : List Decl) :
    inferGroup env (.recursive span ds) = do
      let schemas ← (← inferMemberTypes env ds).mapM (generalize env)
      return (schemas, (ds.zip schemas).foldl (fun env e => bindMember env e.1 e.2) env) := by
  simp [inferGroup, inferMemberTypes]

/-! ## Schemas -/

theorem generalizeAll_eq (env : TypeEnv) (st : CheckState) (ts : List Ty) :
    ts.mapM (generalize env) st = .ok (ts.map (schemaOf env st.bindings)) st := by
  induction ts with
  | nil => rfl
  | cons t ts ih =>
    rw [List.mapM_cons]
    simp only [Bind.bind, EStateM.bind, generalize_eq, ih]
    rfl

theorem generalizeAll_yields (ts : List Ty) :
    Yields (ts.mapM (generalize env)) st fun ss st' => st' = st ∧ ss = ts.map (schemaOf env st.bindings) := by
  rw [Yields, generalizeAll_eq]
  exact ⟨rfl, rfl⟩

theorem generalizes_schemaOf {t : Ty} (hst : Solved st.bindings) (ht : t.NoVars) :
    Generalizes env st.bindings t (schemaOf env st.bindings t) :=
  ((generalize_yields hst ht).of_ok (generalize_eq env st t)).2

/-- A pattern that takes what is found for its declaration takes every instance of the schema. -/
theorem takes_schemaOf {p : Pattern} {t : Ty} (hst : Solved st.bindings) (ht : t.NoVars)
    (h : ∀ θ, Solves θ st.bindings → ∃ bs, p.Takes env.aliases (t.under θ) bs) (θ : Nat → Mono) (ρ : String → Mono) :
    ∃ bs, p.Takes env.aliases ((schemaOf env st.bindings t).type.denote θ ρ) bs := by
  obtain ⟨θ', hθ', hinst, -⟩ := (generalizes_schemaOf hst ht).instances θ ρ
  exact hinst ▸ h θ' hθ'

/-! ## Recursive groups -/

/-- The members of a group bind one name each and take the types that the names have. -/
def MembersTake (al : Aliases) : List Decl → Typings → Prop
  | [], [] => True
  | .mk _ p _ :: ds, (name, τ) :: bs => p.names = [name] ∧ (∃ bs', p.Takes al τ bs') ∧ MembersTake al ds bs
  | _, _ => False

theorem MembersTake.length_eq {al : Aliases} : ∀ {ds : List Decl} {bs : Typings}, MembersTake al ds bs →
    ds.length = bs.length
  | [], [], _ => rfl
  | .mk _ _ _ :: _, _ :: _, h => congrArg (· + 1) (length_eq h.2.2)
  | [], _ :: _, h => h.elim
  | .mk _ _ _ :: _, [], h => h.elim

theorem inferMembers_sound (henv : env.Closed) : ∀ (ds : List Decl), Decl.AllTypesList Ground ds →
    ∀ (inner : TypeEnv) {st : CheckState}, Solved st.bindings → Yields (inferMembers env ds inner) st fun r st' =>
      st.Reached st' ∧ ∃ binds : List (String × Ty), r.1 = binds.map (·.2) ∧ r.2 = bindMono inner binds ∧
        (∀ b ∈ binds, b.2.NoVars) ∧
          ∀ θ, Solves θ st'.bindings → MembersTake env.aliases ds (typingsUnder θ binds)
  | [], _, inner, st, hst => by
    unfold inferMembers
    exact ⟨.refl hst, [], rfl, rfl, List.forall_mem_nil _, fun _ _ => trivial⟩
  | .mk span p e :: ds, hds, inner, st, hst => by
    unfold inferMembers
    split
    · rename_i name hname
      dsimp only
      split
      · exact trivial
      · rw [yields_bind]
        refine (inferPattern_sound henv p hds.1.1 hst).imp ?_
        rintro r st1 ⟨hr, ht, -, htakes⟩
        refine (inferMembers_sound henv ds hds.2 _ hr.solved).bind ?_
        rintro ⟨_, _⟩ st2 ⟨hr', binds, rfl, rfl, hbinds, hmembers⟩
        refine ⟨hr.trans hr', (name, r.1) :: binds, rfl, rfl, List.forall_mem_cons.2 ⟨ht, hbinds⟩, fun θ hθ => ?_⟩
        exact ⟨hname, ⟨_, htakes θ (hr'.solves hθ)⟩, hmembers θ hθ⟩
    · exact trivial

theorem foldl_bindMember {al : Aliases} (schema : Ty → Schema) : ∀ {ds : List Decl} {binds : List (String × Ty)}
    {θ : Nat → Mono}, MembersTake al ds (typingsUnder θ binds) → ∀ (env : TypeEnv),
    (ds.zip (binds.map fun b => schema b.2)).foldl (fun env e => bindMember env e.1 e.2) env =
      env.bindAll (binds.map fun b => (b.1, schema b.2))
  | [], [], _, _, _ => rfl
  | .mk _ p _ :: ds, b :: binds, θ, h, env => by
    obtain ⟨hname, -, hrest⟩ := h
    simp only [List.map_cons, List.zip_cons_cons, List.foldl_cons, bindMember, Decl.pattern, hname]
    exact foldl_bindMember schema hrest _
  | [], _ :: _, _, h, _ => h.elim
  | .mk _ _ _ :: _, [], _, h, _ => h.elim

theorem get?_bindAll_map (env : TypeEnv) (schema : Ty → Schema) (binds : List (String × Ty)) (x : String) :
    Table.get? (env.bindAll (binds.map fun b => (b.1, schema b.2))).types x =
      ((Table.get? binds.reverse x).map schema).or (Table.get? env.types x) := by
  rw [TypeEnv.get?_bindAll, ← List.map_reverse, Table.get?_map]

end Check

end VeriScript
