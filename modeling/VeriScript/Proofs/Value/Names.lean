import VeriScript.Proofs.Typing.Weakening
import VeriScript.Proofs.Value.Environment

/-!
# The names of the session that values refer to

A function or a block keeps the names that it does not bind itself open, and looks them up in the session when it
runs.  Only these names of the session matter for the types of a value.

* `Value.Refers` — a value refers to a name of the session.
* `HasTy.transfer` — a value keeps its types in every session in which the names that it refers to keep theirs.
* `HasTy.mono` — so it does when names get more types.
-/

namespace VeriScript

mutual

/-- The value refers to a name of the session: somewhere in it, a script uses the name, and neither the script nor
its environment binds it. -/
inductive Value.Refers (x : String) : Value → Prop
  | array {vs v} (mem : v ∈ vs) (elem : Value.Refers x v) : Value.Refers x (.array vs)
  | tuple {vs v} (mem : v ∈ vs) (elem : Value.Refers x v) : Value.Refers x (.tuple vs)
  | record {fields name v} (mem : (name, v) ∈ fields) (field : Value.Refers x v) : Value.Refers x (.record fields)
  | closure {p env body name} (uses : body.Uses x) (param : x ∉ p.names) (left : Env.lookup env x = none) :
    Value.Refers x (.closure p env body name)
  | closureEnv {p env body name} (captured : Env.Refers x env) : Value.Refers x (.closure p env body name)
  | builtin {prim args name v} (mem : v ∈ args) (arg : Value.Refers x v) : Value.Refers x (.builtin prim args name)
  | block {env body} (uses : Stmt.UsesList x body) (left : Env.lookup env x = none) :
    Value.Refers x (.action (.block env body))
  | blockEnv {env body} (captured : Env.Refers x env) : Value.Refers x (.action (.block env body))
  | yield {v} (result : Value.Refers x v) : Value.Refers x (.action (.yield v))
  | item {items fn v} (mem : v ∈ items) (item : Value.Refers x v) : Value.Refers x (.action (.forEach items fn))
  | fn {items fn} (each : Value.Refers x fn) : Value.Refers x (.action (.forEach items fn))
  | command {c args v} (mem : v ∈ args) (arg : Value.Refers x v) : Value.Refers x (.action (.command c args))

/-- A value of the environment, or a function of a group in it, refers to a name of the session. -/
inductive Env.Refers (x : String) : Env → Prop
  | value {name schema? v env} (value : Value.Refers x v) : Env.Refers x (.value name schema? v :: env)
  | member {members m env} (mem : m ∈ members) (uses : m.body.Uses x) (param : x ∉ m.param.names)
      (left : Env.lookup (.recursive members :: env) x = none) : Env.Refers x (.recursive members :: env)
  | tail {b env} (rest : Env.Refers x env) : Env.Refers x (b :: env)

end

/-! ## Scopes of some names -/

theorem MembersTyped.only {al : Aliases} {Γ : Scope} {U : String → Prop} {bs0 : Typings} {ms : List Member}
    {bs : Typings} (h : MembersTyped al (Γ.bind bs0) ms bs)
    (hU : ∀ m ∈ ms, ∀ x, m.body.Uses x → x ∉ m.param.names → x ∉ bs0.map (·.1) → U x) :
    MembersTyped al ((Γ.only U).bind bs0) ms bs := by
  generalize hΔ : Γ.bind bs0 = Δ at h
  induction h with
  | nil => exact .nil
  | @cons m ms τ σ bs bs' param body rest ih =>
    subst hΔ
    obtain ⟨hm, hms⟩ := List.forall_mem_cons.1 hU
    refine .cons param (body.weaken fun x hx => ?_) (ih hms)
    refine .bind fun hparam => .bind fun hbound τ hτ => ⟨hm x hx ?_ hbound, hτ⟩
    rwa [← param.names_eq]

theorem MembersTyped.memberOf_eq_none {al : Aliases} {Γ : Scope} {ms : List Member} {bs : Typings}
    (h : MembersTyped al Γ ms bs) {x : String} (hx : x ∉ bs.map (·.1)) : VeriScript.memberOf ms x = none := by
  obtain ⟨hnone, -⟩ | ⟨m, τ, σ, bs', -, hget, -⟩ := h.memberOf x
  · exact hnone
  · exact absurd (List.mem_map.2 ⟨_, List.mem_reverse.1 (Table.mem_of_get? hget), rfl⟩) hx

/-! ## Values in other sessions -/

section

variable {allowed : Command → Prop} {G G' : Scope}

mutual

theorem HasTy.transfer {v : Value} {τ : Mono} : HasTy allowed G v τ → (∀ x, v.Refers x → G.BelowAt G' x) →
    HasTy allowed G' v τ
  | .unit, _ => .unit
  | .bool, _ => .bool
  | .int, _ => .int
  | .string, _ => .string
  | .term, _ => .term
  | .termType, _ => .termType
  | .proved, _ => .proved
  | .proofResult, _ => .proofResult
  | .spec, _ => .spec
  | .array elems, h => .array fun v hv => (elems v hv).transfer fun x hx => h x (.array hv hx)
  | .tuple elems, h => .tuple (elems.transfer fun v hv x hx => h x (.tuple hv hx))
  | .record same typed, h =>
    .record same fun name v τ hv hτ =>
      (typed name v τ hv hτ).transfer fun x hx => h x (.record (Table.mem_of_get? hv) hx)
  | @HasTy.closure _ _ p _ body _ _ _ _ _ _ scope param typed, h => by
    refine .closure (scope.transfer (fun x => body.Uses x ∧ x ∉ p.names) ?_ ?_) param (typed.weaken fun x hx => ?_)
    · exact fun x hx => h x (.closureEnv hx)
    · exact fun x ⟨hx, hparam⟩ hopen => h x (.closure hx hparam hopen)
    · refine .bind fun hparam τ hτ => ⟨⟨hx, ?_⟩, hτ⟩
      rwa [← param.names_eq]
  | .builtin typed given, h => .builtin typed (given.transfer fun v hv x hx => h x (.builtin hv hx))
  | @HasTy.block _ _ _ body _ _ _ _ scope stmts, h => by
    refine .block (scope.transfer (fun x => Stmt.UsesList x body) ?_ ?_) (stmts.weaken fun x hx τ hτ => ⟨hx, hτ⟩)
    · exact fun x hx => h x (.blockEnv hx)
    · exact fun x hx hopen => h x (.block hx hopen)
  | .yield result, h => .yield (result.transfer fun x hx => h x (.yield hx))
  | .forEach items fn, h =>
    .forEach (fun v hv => (items v hv).transfer fun x hx => h x (.item hv hx)) (fn.transfer fun x hx => h x (.fn hx))
  | .command typed may given, h =>
    .command typed may (given.transfer fun v hv x hx => h x (.command hv hx))

theorem HasTys.transfer {vs : List Value} {τs : List Mono} : HasTys allowed G vs τs →
    (∀ v ∈ vs, ∀ x, v.Refers x → G.BelowAt G' x) → HasTys allowed G' vs τs
  | .nil, _ => .nil
  | .cons head tail, h =>
    .cons (head.transfer (h _ (.head _))) (tail.transfer fun v hv => h v (.tail _ hv))

/-- The environment provides the names that matter, when those that it leaves to the session keep their types. -/
theorem EnvTy.transfer {env : Env} {Γ : Scope} : EnvTy allowed G env Γ →
    ∀ (U : String → Prop), (∀ x, env.Refers x → G.BelowAt G' x) → (∀ x, U x → env.lookup x = none → G.BelowAt G' x) →
    EnvTy allowed G' env (Γ.only U)
  | .nil below, _, _, hU => .nil fun x τ ⟨hx, hτ⟩ => hU x hx rfl τ (below x τ hτ)
  | @EnvTy.value _ _ name _ _ _ _ _ _ typed rest below, U, h, hU => by
    refine .value (fun τ hτ => (typed τ hτ).transfer fun x hx => h x (.value hx))
      (rest.transfer (fun x => U x ∧ x ≠ name) (fun x hx => h x (.tail hx)) fun x ⟨hx, hname⟩ hopen => ?_)
      fun x τ ⟨hx, hτ⟩ => ?_
    · exact hU x hx (by rwa [Env.lookup, if_neg (Ne.symm hname)])
    · have := below x τ hτ
      by_cases hname : x = name
      · rwa [if_pos hname] at this ⊢
      · rw [if_neg hname] at this ⊢
        exact ⟨⟨hx, hname⟩, this⟩
  | .typedef rest, U, h, hU => .typedef (rest.transfer U (fun x hx => h x (.tail hx)) hU)
  | @EnvTy.recursive _ _ members env Γ _ _ _ bs typed rest below, U, h, hU => by
    -- from outside the group come the names that are used behind it and those that its members use
    refine .recursive (fun i => (typed i).only fun m hm x hx hparam hbound => ?_)
      (rest.transfer (fun x => memberOf members x = none ∧
        (U x ∨ ∃ m ∈ members, m.body.Uses x ∧ x ∉ m.param.names)) (fun x hx => h x (.tail hx)) ?_) ?_
    · exact ⟨(typed i).memberOf_eq_none hbound, .inr ⟨m, hm, hx, hparam⟩⟩
    · rintro x ⟨hnone, hx⟩ hopen
      have hlookup : Env.lookup (.recursive members :: env) x = none := by rw [Env.lookup, hnone]; exact hopen
      obtain hx | ⟨m, hm, hx, hparam⟩ := hx
      · exact hU x hx hlookup
      · exact h x (.member hm hx hparam hlookup)
    · rintro x τ ⟨hx, hτ⟩
      obtain ⟨i, hi⟩ := below x τ hτ
      refine ⟨i, Scope.BelowAt.bind (fun hbound τ hτ => ?_) τ hi⟩
      exact ⟨⟨(typed i).memberOf_eq_none hbound, .inl hx⟩, hτ⟩

end

theorem HasTy.mono (hG : G.Below G') {v : Value} {τ : Mono} (h : HasTy allowed G v τ) : HasTy allowed G' v τ :=
  h.transfer fun x _ τ => hG x τ

theorem EnvTy.mono (hG : G.Below G') {env : Env} {Γ : Scope} (h : EnvTy allowed G env Γ) : EnvTy allowed G' env Γ :=
  (h.transfer (fun _ => True) (fun x _ τ => hG x τ) fun x _ _ τ => hG x τ).restrict fun _ _ hτ => ⟨trivial, hτ⟩

end

end VeriScript
