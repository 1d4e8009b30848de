import VeriScript.Proofs.Value.Typing
import VeriScript.Value.Access

/-!
# What values of a type look like

* `HasTy.list_inv`, `HasTy.tuple_inv`, `HasTy.fn_inv`, `HasTy.action_inv`, … — the forms of the values of a type.
* `RuntimeFault.isShape` — the errors that come from the kind of a value.
* `Meets` — a computation that may fail gives what is wanted, or fails in a way that is allowed.
* `index_typed`, `field_typed`, `proj_typed` — reading a part of a value of the right type.
-/

namespace VeriScript

variable {allowed : Command → Prop} {G : Scope} {v : Value}

/-! ## Forms -/

theorem HasTy.bool_inv (h : HasTy allowed G v .bool) : ∃ b, v = .bool b := by
  generalize hτ : Mono.bool = τ at h
  cases h <;> simp [Mono.fns] at hτ
  exact ⟨_, rfl⟩

theorem HasTy.int_inv (h : HasTy allowed G v .int) : ∃ n, v = .int n := by
  generalize hτ : Mono.int = τ at h
  cases h <;> simp [Mono.fns] at hτ
  exact ⟨_, rfl⟩

theorem HasTy.string_inv (h : HasTy allowed G v .string) : ∃ s, v = .string s := by
  generalize hτ : Mono.string = τ at h
  cases h <;> simp [Mono.fns] at hτ
  exact ⟨_, rfl⟩

theorem HasTy.term_inv (h : HasTy allowed G v .term) : ∃ t, v = .term t := by
  generalize hτ : Mono.term = τ at h
  cases h <;> simp [Mono.fns] at hτ
  exact ⟨_, rfl⟩

theorem HasTy.termType_inv (h : HasTy allowed G v .termType) : ∃ t, v = .termType t := by
  generalize hτ : Mono.termType = τ at h
  cases h <;> simp [Mono.fns] at hτ
  exact ⟨_, rfl⟩

variable {τ : Mono} {τs : List Mono} {vs : List Value}

theorem HasTy.list_inv (h : HasTy allowed G v (.list τ)) : ∃ vs, v = .array vs ∧ ∀ v ∈ vs, HasTy allowed G v τ := by
  generalize hσ : Mono.list τ = σ at h
  cases h with
  | array elems =>
    simp only [Mono.con.injEq, List.cons.injEq, and_true, true_and] at hσ
    exact ⟨_, rfl, hσ ▸ elems⟩
  | _ => simp [Mono.fns] at hσ

theorem HasTy.tuple_inv (h : HasTy allowed G v (.tuple τs)) : ∃ vs, v = .ofTuple vs ∧ HasTys allowed G vs τs := by
  generalize hσ : Mono.tuple τs = σ at h
  cases h with
  | unit =>
    simp only [Mono.con.injEq, true_and] at hσ
    exact ⟨[], rfl, hσ ▸ .nil⟩
  | tuple elems =>
    simp only [Mono.con.injEq, true_and] at hσ
    exact ⟨_, rfl, hσ ▸ elems⟩
  | _ => simp [Mono.fns] at hσ

theorem HasTy.record_inv {fs : String → Option Mono} (h : HasTy allowed G v (.record fs)) :
    ∃ fields, v = .record fields ∧ (∀ name, (Table.get? fields name).isSome = (fs name).isSome) ∧
      ∀ name v τ, Table.get? fields name = some v → fs name = some τ → HasTy allowed G v τ := by
  generalize hσ : Mono.record fs = σ at h
  cases h with
  | record same typed =>
    cases hσ
    exact ⟨_, rfl, same, typed⟩
  | _ => simp [Mono.fns] at hσ

/-- A function is a closure or a primitive that wants more arguments. -/
inductive FunctionTy (allowed : Command → Prop) (G : Scope) (τ σ : Mono) : Value → Prop
  | closure {p env body name al Γ bs} (scope : EnvTy allowed G env Γ) (param : p.Takes al τ bs)
      (typed : HasType al (Γ.bind bs) body σ) : FunctionTy allowed G τ σ (.closure p env body name)
  | builtin {prim args name params rest ρ} (typed : prim.Typed allowed (params ++ τ :: rest) ρ)
      (given : HasTys allowed G args params) (result : σ = .fns rest ρ) :
    FunctionTy allowed G τ σ (.builtin prim args name)

theorem HasTy.fn_inv {τ σ : Mono} (h : HasTy allowed G v (.fn τ σ)) : FunctionTy allowed G τ σ v := by
  generalize hρ : Mono.fn τ σ = ρ at h
  cases h with
  | closure scope param typed =>
    simp only [Mono.con.injEq, List.cons.injEq, and_true, true_and] at hρ
    obtain ⟨rfl, rfl⟩ := hρ
    exact .closure scope param typed
  | builtin typed given =>
    simp only [Mono.fns, Mono.con.injEq, List.cons.injEq, and_true, true_and] at hρ
    obtain ⟨rfl, rfl⟩ := hρ
    exact .builtin typed given rfl
  | _ => simp at hρ

/-- What an action of a type does. -/
inductive JobTy (allowed : Command → Prop) (G : Scope) (c τ : Mono) : Job → Prop
  | block {env body al Γ} (scope : EnvTy allowed G env Γ) (stmts : HasBody al Γ c body τ) :
    JobTy allowed G c τ (.block env body)
  | yield {v : Value} (result : HasTy allowed G v τ) : JobTy allowed G c τ (.yield v)
  | forEach {vs f σ ρ} (items : ∀ v ∈ vs, HasTy allowed G v σ) (fn : HasTy allowed G f (.fn σ (.block c ρ)))
      (result : τ = .list ρ) : JobTy allowed G c τ (.forEach vs f)
  | command {cmd args params} (typed : Command.Typed cmd params τ) (may : allowed cmd)
      (given : HasTys allowed G args params) (context : c = .context cmd.context) :
    JobTy allowed G c τ (.command cmd args)

theorem HasTy.action_inv {c τ : Mono} (h : HasTy allowed G v (.block c τ)) :
    ∃ job, v = .action job ∧ JobTy allowed G c τ job := by
  generalize hρ : Mono.block c τ = ρ at h
  cases h with
  | block scope stmts =>
    simp only [Mono.con.injEq, List.cons.injEq, and_true, true_and] at hρ
    obtain ⟨rfl, rfl⟩ := hρ
    exact ⟨_, rfl, .block scope stmts⟩
  | yield result =>
    simp only [Mono.con.injEq, List.cons.injEq, and_true, true_and] at hρ
    obtain ⟨rfl, rfl⟩ := hρ
    exact ⟨_, rfl, .yield result⟩
  | forEach items fn =>
    simp only [Mono.con.injEq, List.cons.injEq, and_true, true_and] at hρ
    obtain ⟨rfl, rfl⟩ := hρ
    exact ⟨_, rfl, .forEach items fn rfl⟩
  | command typed may given =>
    simp only [Mono.con.injEq, List.cons.injEq, and_true, true_and] at hρ
    obtain ⟨rfl, rfl⟩ := hρ
    exact ⟨_, rfl, .command typed may given rfl⟩
  | _ => simp [Mono.fns] at hρ

/-! ## Parts -/

/-- The error comes from a value of the wrong kind, a part that is not there, or a name without value. -/
def RuntimeFault.isShape : RuntimeFault → Bool
  | .notFunction _ | .notAction _ | .wrongContext _ _ | .unknownVariable _ | .notCondition _
  | .patternMismatch _ _ | .indexArray _ | .indexInt _ | .lookupRecord _ _ | .lookupField _ | .projTuple _
  | .projRange _ _ | .argument _ _ _ _ | .arity _ _ _ | .operands _ _ _ => true
  | _ => false

/-- The computation gives what `Q` says or fails as `E` allows. -/
def Meets {ε α : Type} (E : ε → Prop) (r : Except ε α) (Q : α → Prop) : Prop :=
  match r with
  | .ok a => Q a
  | .error e => E e

namespace Meets

variable {ε δ α β : Type} {E : ε → Prop} {r : Except ε α} {Q Q' : α → Prop}

theorem imp (h : Meets E r Q) (hQ : ∀ a, Q a → Q' a) : Meets E r Q' := by
  cases r with
  | ok a => exact hQ a h
  | error e => exact h

theorem bind {f : α → Except ε β} {R : β → Prop} (h : Meets E r Q) (hf : ∀ a, Q a → Meets E (f a) R) :
    Meets E (r >>= f) R := by
  cases r with
  | ok a => exact hf a h
  | error e => exact h

theorem mapError {f : ε → δ} {F : δ → Prop} (h : Meets E r Q) (hf : ∀ e, E e → F (f e)) :
    Meets F (r.mapError f) Q := by
  cases r with
  | ok a => exact h
  | error e => exact hf e h

theorem mapM {f : α → Except ε β} {R : α → β → Prop} (hf : ∀ a, Meets E (f a) (R a)) (as : List α) :
    Meets E (as.mapM f) fun bs => bs.length = as.length ∧ ∀ e ∈ as.zip bs, R e.1 e.2 := by
  induction as with
  | nil => exact ⟨rfl, nofun⟩
  | cons a as ih =>
    rw [List.mapM_cons]
    refine (hf a).bind fun b hb => ih.bind fun bs ⟨hlength, hbs⟩ => ?_
    exact ⟨by simp [hlength], List.forall_mem_cons.2 ⟨hb, hbs⟩⟩

end Meets

theorem HasTys.length_eq (h : HasTys allowed G vs τs) : vs.length = τs.length := by
  induction vs generalizing τs with
  | nil => cases h; rfl
  | cons v vs ih =>
    cases h with
    | cons head tail => simp [ih tail]

theorem HasTys.get (h : HasTys allowed G vs τs) {i : Nat}
    (hi : τs[i]? = some τ) : ∃ v, vs[i]? = some v ∧ HasTy allowed G v τ := by
  induction vs generalizing τs i with
  | nil =>
    cases h
    simp at hi
  | cons v vs ih =>
    cases h with
    | cons head tail =>
      cases i with
      | zero =>
        simp only [List.getElem?_cons_zero, Option.some.injEq] at hi
        exact ⟨v, rfl, hi ▸ head⟩
      | succ i =>
        simp only [List.getElem?_cons_succ] at hi ⊢
        exact ih tail hi

theorem HasTys.nil_inv (h : HasTys allowed G vs []) : vs = [] := by
  cases h
  rfl

theorem HasTys.one_inv (h : HasTys allowed G vs [τ]) : ∃ v, vs = [v] ∧ HasTy allowed G v τ := by
  cases h with
  | cons head tail =>
    obtain rfl := tail.nil_inv
    exact ⟨_, rfl, head⟩

theorem HasTys.two_inv {τ σ : Mono} (h : HasTys allowed G vs [τ, σ]) :
    ∃ v w, vs = [v, w] ∧ HasTy allowed G v τ ∧ HasTy allowed G w σ := by
  cases h with
  | cons head tail =>
    obtain ⟨w, rfl, hw⟩ := tail.one_inv
    exact ⟨_, w, rfl, head, hw⟩

theorem HasTys.three_inv {τ σ ρ : Mono} (h : HasTys allowed G vs [τ, σ, ρ]) :
    ∃ u v w, vs = [u, v, w] ∧ HasTy allowed G u τ ∧ HasTy allowed G v σ ∧ HasTy allowed G w ρ := by
  cases h with
  | cons head tail =>
    obtain ⟨v, w, rfl, hv, hw⟩ := tail.two_inv
    exact ⟨_, v, w, rfl, head, hv, hw⟩

theorem HasTys.append {vs ws : List Value} {τs σs : List Mono} (h : HasTys allowed G vs τs)
    (h' : HasTys allowed G ws σs) : HasTys allowed G (vs ++ ws) (τs ++ σs) := by
  induction vs generalizing τs with
  | nil =>
    cases h
    exact h'
  | cons v vs ih =>
    cases h with
    | cons head tail => exact .cons head (ih tail)

namespace Value

variable {τ : Mono}

theorem index_typed {a i : Value} (ha : HasTy allowed G a (.list τ)) (hi : HasTy allowed G i .int) :
    Meets (fun fault => fault.isShape = false) (a.index i) (HasTy allowed G · τ) := by
  obtain ⟨vs, rfl, hvs⟩ := ha.list_inv
  obtain ⟨n, rfl⟩ := hi.int_inv
  unfold index
  dsimp only
  split
  · rename_i v hv
    refine hvs v ?_
    split at hv
    · cases hv
    · exact List.mem_of_getElem? hv
  · rfl

theorem field_typed {r : Value} {fs : String → Option Mono} {name : String}
    (hr : HasTy allowed G r (.record fs)) (hτ : fs name = some τ) :
    ∃ v, r.field name = .ok v ∧ HasTy allowed G v τ := by
  obtain ⟨fields, rfl, hsame, htyped⟩ := hr.record_inv
  have hsome := hsame name
  rw [hτ] at hsome
  obtain ⟨v, hv⟩ := Option.isSome_iff_exists.1 hsome
  exact ⟨v, by simp [field, hv], htyped name v τ hv hτ⟩

theorem proj_typed {t : Value} {τs : List Mono} {i : Nat} (ht : HasTy allowed G t (.tuple τs))
    (hτ : τs[i]? = some τ) : ∃ v, t.proj i = .ok v ∧ HasTy allowed G v τ := by
  obtain ⟨vs, rfl, hvs⟩ := ht.tuple_inv
  obtain ⟨v, hv, htyped⟩ := hvs.get hτ
  cases vs with
  | nil => simp at hv
  | cons w ws => exact ⟨v, by simp only [ofTuple, proj, hv], htyped⟩

end Value

end VeriScript
