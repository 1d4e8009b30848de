import VeriScript.Proofs.Script.Names
import VeriScript.Proofs.Typing.Rules

/-!
# Typing depends on the names that are used

* `Pattern.Takes.names_eq` — a pattern gives types to its own names and no others.
* `HasType.weaken` — a typing carries over to any scope in which the names that the expression uses have the
  types they had.
-/

namespace VeriScript

/-! ## The names of a pattern -/

mutual

theorem Pattern.Takes.names_eq {al : Aliases} {τ : Mono} {bs : Typings} : ∀ {p : Pattern}, p.Takes al τ bs →
    bs.map (·.1) = p.names
  | .wildcard _ _, h => by
    cases h
    rfl
  | .var _ _ _, h => by
    cases h
    rfl
  | .paren _ p _, h => by
    cases h with
    | paren written inner => exact inner.names_eq
  | .tuple _ ps _, h => by
    cases h with
    | tuple written elems => exact elems.names_eq

theorem Pattern.TakesAll.names_eq {al : Aliases} {τs : List Mono} {bs : Typings} : ∀ {ps : List Pattern},
    Pattern.TakesAll al ps τs bs → bs.map (·.1) = (Pattern.distributeList ps (List.replicate ps.length none)).map (·.1)
  | [], h => by
    cases h
    rfl
  | p :: ps, h => by
    cases h with
    | cons head tail =>
      rw [List.map_append, head.names_eq, tail.names_eq, List.length_cons, List.replicate_succ,
        Pattern.distributeList, List.map_append]
      rfl

end

theorem HasMembers.names_eq {al : Aliases} {Γ : Scope} {ds : List Decl} {bs : Typings}
    (h : HasMembers al Γ ds bs) : bs.map (·.1) = ds.flatMap fun d => d.pattern.names := by
  induction ds generalizing bs with
  | nil =>
    cases h
    rfl
  | cons d ds ih =>
    cases h with
    | cons named takes body rest => simp [Decl.pattern, named, ih rest]

/-! ## Scopes -/

/-- The scope of the names that `U` allows. -/
def Scope.only (Γ : Scope) (U : String → Prop) : Scope := fun x τ => U x ∧ Γ x τ

/-- The types that a name has in one scope, it has in the other. -/
def Scope.BelowAt (Γ Γ' : Scope) (x : String) : Prop :=
  ∀ τ, Γ x τ → Γ' x τ

theorem Scope.BelowAt.bind {Γ Γ' : Scope} {bs : Typings} {x : String} (h : x ∉ bs.map (·.1) → Γ.BelowAt Γ' x) :
    (Γ.bind bs).BelowAt (Γ'.bind bs) x := by
  intro τ hτ
  unfold Scope.bind at hτ ⊢
  cases hget : Table.get? bs.reverse x with
  | some σ => simpa only [hget] using hτ
  | none =>
    simp only [hget] at hτ ⊢
    refine h (fun hx => ?_) τ hτ
    obtain ⟨b, hb, rfl⟩ := List.mem_map.1 hx
    obtain ⟨v, hv⟩ := Table.exists_get?_of_mem (List.mem_reverse.2 hb)
    rw [hget] at hv
    cases hv

theorem Scope.BelowAt.bindAny {ι : Type} {Γ Γ' : Scope} {bs : ι → Typings} {x : String}
    (h : ∀ i, x ∉ (bs i).map (·.1) → Γ.BelowAt Γ' x) : (Γ.bindAny bs).BelowAt (Γ'.bindAny bs) x :=
  fun τ ⟨i, hi⟩ => ⟨i, Scope.BelowAt.bind (h i) τ hi⟩

/-! ## Weakening -/

mutual

theorem HasType.weaken {al : Aliases} {Γ Γ' : Scope} {τ : Mono} : ∀ {e : Expr}, (∀ x, e.Uses x → Γ.BelowAt Γ' x) →
    HasType al Γ e τ → HasType al Γ' e τ
  | .bool _ _, _, h => by
    cases h
    exact .bool
  | .int _ _, _, h => by
    cases h
    exact .int
  | .string _ _, _, h => by
    cases h
    exact .string
  | .code _ _, _, h => by
    cases h
    exact .code
  | .termType _ _, _, h => by
    cases h
    exact .termType
  | .array _ es, huses, h => by
    cases h with
    | array elems => exact .array (HasType.weakenElems es huses elems)
  | .tuple _ es, huses, h => by
    cases h with
    | tuple elems => exact .tuple (elems.weaken huses)
  | .record _ fields, huses, h => by
    cases h with
    | record distinct typed => exact .record distinct (typed.weaken huses)
  | .index _ a i, huses, h => by
    cases h with
    | index array index =>
      exact .index (array.weaken fun x hx => huses x (.inl hx)) (index.weaken fun x hx => huses x (.inr hx))
  | .field _ e _, huses, h => by
    cases h with
    | field record has => exact .field (record.weaken huses) has
  | .proj _ e _, huses, h => by
    cases h with
    | proj tuple has => exact .proj (tuple.weaken huses) has
  | .var _ y, huses, h => by
    cases h with
    | var scope => exact .var (huses y rfl τ scope)
  | .lam _ p e, huses, h => by
    cases h with
    | lam param body =>
      refine .lam param (body.weaken fun x hx => .bind fun hnames => huses x ⟨?_, hx⟩)
      rwa [← param.names_eq]
  | .app _ f a, huses, h => by
    cases h with
    | app fn arg =>
      exact .app (fn.weaken fun x hx => huses x (.inl hx)) (arg.weaken fun x hx => huses x (.inr hx))
  | .letIn _ g e, huses, h => by
    cases h with
    | letIn group body =>
      obtain ⟨Δ, hgroup, hΔ⟩ := group.weaken fun x hx => huses x (.inl hx)
      exact .letIn hgroup (body.weaken fun x hx => hΔ x fun hnames => huses x (.inr ⟨hnames, hx⟩))
  | .typed _ e _, huses, h => by
    cases h with
    | typed written inner => exact .typed written (inner.weaken huses)
  | .ite _ c y n, huses, h => by
    cases h with
    | ite test yes no =>
      exact .ite (test.weaken fun x hx => huses x (.inl hx)) (yes.weaken fun x hx => huses x (.inr (.inl hx)))
        (no.weaken fun x hx => huses x (.inr (.inr hx)))
  | .block _ body, huses, h => by
    cases h with
    | block stmts => exact .block (stmts.weaken huses)
  | .paren _ e, huses, h => by
    cases h with
    | paren inner => exact .paren (inner.weaken huses)

theorem HasType.weakenElems {al : Aliases} {Γ Γ' : Scope} {τ : Mono} : ∀ es : List Expr,
    (∀ x, Expr.UsesList x es → Γ.BelowAt Γ' x) → (∀ e ∈ es, HasType al Γ e τ) → ∀ e ∈ es, HasType al Γ' e τ
  | [], _, _ => nofun
  | e :: es, huses, h => by
    obtain ⟨he, hes⟩ := List.forall_mem_cons.1 h
    exact List.forall_mem_cons.2 ⟨he.weaken fun x hx => huses x (.inl hx),
      HasType.weakenElems es (fun x hx => huses x (.inr hx)) hes⟩

theorem HasTypes.weaken {al : Aliases} {Γ Γ' : Scope} {τs : List Mono} : ∀ {es : List Expr},
    (∀ x, Expr.UsesList x es → Γ.BelowAt Γ' x) → HasTypes al Γ es τs → HasTypes al Γ' es τs
  | [], _, h => by
    cases h
    exact .nil
  | e :: es, huses, h => by
    cases h with
    | cons head tail =>
      exact .cons (head.weaken fun x hx => huses x (.inl hx)) (tail.weaken fun x hx => huses x (.inr hx))

theorem HasFields.weaken {al : Aliases} {Γ Γ' : Scope} {bs : Typings} : ∀ {fields : List (String × Expr)},
    (∀ x, Expr.UsesFields x fields → Γ.BelowAt Γ' x) → HasFields al Γ fields bs → HasFields al Γ' fields bs
  | [], _, h => by
    cases h
    exact .nil
  | (name, e) :: fields, huses, h => by
    cases h with
    | cons head tail =>
      exact .cons (head.weaken fun x hx => huses x (.inl hx)) (tail.weaken fun x hx => huses x (.inr hx))

theorem HasBody.weaken {al : Aliases} {Γ Γ' : Scope} {c τ : Mono} : ∀ {stmts : List Stmt},
    (∀ x, Stmt.UsesList x stmts → Γ.BelowAt Γ' x) → HasBody al Γ c stmts τ → HasBody al Γ' c stmts τ
  | [], _, h => by cases h
  | [.bind _ p e], huses, h => by
    cases h with
    | last action result ignored => exact .last (action.weaken fun x hx => huses x (.inl hx)) result ignored
  | .bind _ p e :: stmt :: rest, huses, h => by
    cases h with
    | bind action result next =>
      refine .bind (action.weaken fun x hx => huses x (.inl hx)) result
        (next.weaken fun x hx => .bind fun hnames => huses x (.inr ⟨?_, hx⟩))
      rwa [← result.names_eq]
  | .define _ g :: rest, huses, h => by
    cases h with
    | define group next =>
      obtain ⟨Δ, hgroup, hΔ⟩ := group.weaken fun x hx => huses x (.inl hx)
      exact .define hgroup (next.weaken fun x hx => hΔ x fun hnames => huses x (.inr ⟨hnames, hx⟩))
  | .typedef _ _ _ :: rest, huses, h => by
    cases h with
    | typedef written next => exact .typedef written (next.weaken huses)
  | .code _ _ :: rest, huses, h => by
    cases h with
    | code next => exact .code (next.weaken huses)
  | .importTerms _ _ _ :: rest, huses, h => by
    cases h with
    | importTerms next => exact .importTerms (next.weaken huses)

theorem Declares.weaken {al : Aliases} {Γ Γ' Δ : Scope} : ∀ {g : Group}, (∀ x, g.Uses x → Γ.BelowAt Γ' x) →
    Declares al Γ g Δ → ∃ Δ', Declares al Γ' g Δ' ∧ ∀ x, (x ∉ g.names → Γ.BelowAt Γ' x) → Δ.BelowAt Δ' x
  | .single _ (.mk _ p e), huses, h => by
    cases h with
    | @single _ _ _ _ _ _ _ ι bs τ some typed takes below =>
      refine ⟨Γ'.bindAny bs, .single some (fun i => (typed i).weaken huses) takes fun _ _ h => h, fun x hx τ hτ => ?_⟩
      refine Scope.BelowAt.bindAny (fun i hnames => hx ?_) τ (below x τ hτ)
      simpa [Group.names, Group.decls, Decl.pattern, (takes i).names_eq] using hnames
  | .recursive _ ds, huses, h => by
    cases h with
    | @recursive _ _ _ _ _ ι bs some typed below =>
      refine ⟨Γ'.bindAny bs, .recursive some (fun i => ?_) fun _ _ h => h, fun x hx τ hτ => ?_⟩
      · refine (typed i).weaken fun x hx => .bind fun hnames => huses x ⟨?_, hx⟩
        rwa [← (typed i).names_eq]
      · refine Scope.BelowAt.bindAny (fun i hnames => hx ?_) τ (below x τ hτ)
        rwa [(typed i).names_eq] at hnames

theorem HasMembers.weaken {al : Aliases} {Γ Γ' : Scope} {bs : Typings} : ∀ {ds : List Decl},
    (∀ x, Decl.UsesList x ds → Γ.BelowAt Γ' x) → HasMembers al Γ ds bs → HasMembers al Γ' ds bs
  | [], _, h => by
    cases h
    exact .nil
  | .mk _ p e :: ds, huses, h => by
    cases h with
    | cons named takes body rest =>
      exact .cons named takes (body.weaken fun x hx => huses x (.inl hx)) (rest.weaken fun x hx => huses x (.inr hx))

end

end VeriScript
