import VeriScript.Proofs.Value.Forms
import VeriScript.Run.Eval

/-!
# Local environments provide scopes

* `EnvTy.lookup` — a name of the scope has a value of its types, or is left to the session.
* `Pattern.destructure_typed`, `EnvTy.bindParts` — what a pattern binds.
* `MembersOf.typed` — the functions of a recursive group.
-/

namespace VeriScript

variable {allowed : Command → Prop} {G : Scope}

/-! ## Scopes -/

theorem Scope.bind_cons (Γ : Scope) (b : String × Mono) (bs : Typings) :
    Γ.bind (b :: bs) = (Γ.bind [b]).bind bs := by
  funext x τ
  simp only [Scope.bind, List.reverse_cons, List.reverse_nil, List.nil_append, Table.get?_append]
  cases Table.get? bs.reverse x <;> rfl

theorem Scope.bind_below_bindAny {ι : Type} (Γ : Scope) (bs : ι → Typings) (i : ι) :
    (Γ.bind (bs i)).Below (Γ.bindAny bs) :=
  fun _ _ h => ⟨i, h⟩

/-! ## Members -/

theorem memberOf_cons (m : Member) (ms : List Member) (x : String) :
    memberOf (m :: ms) x = (memberOf ms x).or (if m.name = x then some m else none) := by
  simp only [memberOf, List.reverse_cons, List.find?_append, List.find?_cons, List.find?_nil]
  split <;> simp_all

variable {bs : Typings} {Γ : Scope} {ms : List Member} {al : Aliases} {env : Env} {ss : List (Option Schema)}
  {ds : List Decl}

/-- The member that a name means has the type that the name has. -/
theorem MembersTyped.memberOf (h : MembersTyped al Γ ms bs) (x : String) :
    (VeriScript.memberOf ms x = none ∧ Table.get? bs.reverse x = none) ∨
      ∃ m τ σ bs', VeriScript.memberOf ms x = some m ∧ Table.get? bs.reverse x = some (.fn τ σ) ∧
        m.param.Takes al τ bs' ∧ HasType al (Γ.bind bs') m.body σ := by
  induction h with
  | nil => exact .inl ⟨rfl, rfl⟩
  | @cons m ms τ σ bs bs' param body rest ih =>
    rw [memberOf_cons, List.reverse_cons, Table.get?_append]
    obtain ⟨hnone, hnone'⟩ | ⟨m', τ', σ', bs'', hsome, hsome', hm'⟩ := ih
    · rw [hnone, hnone', Option.none_or, Option.none_or]
      by_cases hname : m.name = x
      · refine .inr ⟨m, τ, σ, bs', ?_, ?_, param, body⟩ <;> simp [hname, Table.get?]
      · refine .inl ⟨?_, ?_⟩ <;> simp [hname, Table.get?]
    · refine .inr ⟨m', τ', σ', bs'', ?_, ?_, hm'⟩
      · rw [hsome, Option.some_or]
      · rw [hsome', Option.some_or]

/-! ## Names -/

theorem EnvTy.restrict {Γ Δ : Scope} (h : EnvTy allowed G env Γ) (hΔ : Δ.Below Γ) : EnvTy allowed G env Δ := by
  induction env generalizing Γ Δ with
  | nil =>
    cases h with
    | nil below => exact .nil fun x τ h => below x τ (hΔ x τ h)
  | cons b env ih =>
    cases h with
    | value typed rest below => exact .value typed rest fun x τ h => below x τ (hΔ x τ h)
    | typedef rest => exact .typedef (ih rest hΔ)
    | recursive typed rest below => exact .recursive typed rest fun x τ h => below x τ (hΔ x τ h)

theorem EnvTy.lookup (h : EnvTy allowed G env Γ) {x : String} {τ : Mono} (hx : Γ x τ) :
    (∃ v, env.lookup x = some v ∧ HasTy allowed G v τ) ∨ (env.lookup x = none ∧ G x τ) := by
  induction env generalizing Γ with
  | nil =>
    cases h with
    | nil below => exact .inr ⟨rfl, below x τ hx⟩
  | cons b env ih =>
    cases h with
    | @value name schema? v _ Γ' _ types typed rest below =>
      have hτ := below x τ hx
      by_cases hname : x = name
      · rw [if_pos hname] at hτ
        exact .inl ⟨v, by simp [Env.lookup, hname], typed τ hτ⟩
      · rw [if_neg hname] at hτ
        simpa only [Env.lookup, Ne.symm hname, if_false] using ih rest hτ
    | typedef rest => exact ih rest hx
    | @recursive members _ Γ' _ al ι bs typed rest below =>
      obtain ⟨i, hi⟩ := below x τ hx
      simp only [Env.lookup]
      obtain ⟨hmember, hget⟩ | ⟨m, σ, ρ, bs', hmember, hget, hparam, hbody⟩ := (typed i).memberOf x
      · simp only [Scope.bind, hget] at hi
        simpa only [hmember] using ih rest hi
      · simp only [Scope.bind, hget] at hi
        subst hi
        rw [hmember]
        -- within the group, its members have the types of this one typing
        exact .inl ⟨_, rfl, .closure (.recursive typed rest (Γ'.bind_below_bindAny bs i)) hparam hbody⟩

/-! ## Patterns -/

/-- The parts have the names and the types of the typings, one by one. -/
inductive PartsTyped (allowed : Command → Prop) (G : Scope) : List Part → Typings → Prop
  | nil : PartsTyped allowed G [] []
  | cons {part parts τ bs} (typed : HasTy allowed G part.value τ) (rest : PartsTyped allowed G parts bs) :
    PartsTyped allowed G (part :: parts) ((part.name, τ) :: bs)

theorem PartsTyped.append {ps qs : List Part} {bs bs' : Typings} (h : PartsTyped allowed G ps bs)
    (h' : PartsTyped allowed G qs bs') : PartsTyped allowed G (ps ++ qs) (bs ++ bs') := by
  induction h with
  | nil => exact h'
  | cons typed rest ih => exact .cons typed ih

theorem Value.components?_ofTuple (vs : List Value) : (Value.ofTuple vs).components? = some vs := by
  cases vs <;> rfl

theorem Schema.length_parts (schema? : Option Schema) (n : Nat) : (Schema.parts schema? n).length = n := by
  unfold Schema.parts
  split
  · split
    · simpa
    · simp
  · simp

mutual

theorem Pattern.names_distribute : ∀ (p : Pattern) (schema? : Option Schema),
    (p.distribute schema?).map (·.1) = p.names
  | .wildcard _ _, _ | .var _ _ _, _ => rfl
  | .paren _ inner _, schema? => inner.names_distribute schema?
  | .tuple _ elems _, _ => names_distributeList elems (Schema.length_parts _ _)

theorem Pattern.names_distributeList : ∀ (ps : List Pattern) {schemas : List (Option Schema)},
    schemas.length = ps.length →
      (distributeList ps schemas).map (·.1) = (distributeList ps (List.replicate ps.length none)).map (·.1)
  | [], _, _ => rfl
  | p :: ps, s :: ss, h => by
    rw [distributeList, List.map_append, p.names_distribute s, names_distributeList ps (Nat.succ.inj h),
      List.length_cons, List.replicate_succ, distributeList, List.map_append]
    rfl

end

namespace Pattern

mutual

theorem destructure_typed {al : Aliases} : ∀ {p : Pattern} {τ : Mono} {bs : Typings} {v : Value}
    (schema? : Option Schema), p.Takes al τ bs → HasTy allowed G v τ →
      ∃ parts, p.destructure schema? v = .ok parts ∧ PartsTyped allowed G parts bs
  | .wildcard _ _, _, _, _, _, h, _ => by
    cases h
    exact ⟨[], rfl, .nil⟩
  | .var _ name _, _, _, v, schema?, h, hv => by
    cases h
    exact ⟨[⟨name, schema?, v⟩], rfl, .cons hv .nil⟩
  | .paren _ p _, _, _, _, schema?, h, hv => by
    cases h with
    | paren written inner =>
      rw [destructure]
      exact destructure_typed schema? inner hv
  | .tuple span ps _, _, _, v, schema?, h, hv => by
    cases h with
    | tuple written elems =>
      obtain ⟨vs, rfl, hvs⟩ := hv.tuple_inv
      have hlength : vs.length = ps.length := hvs.length_eq.trans elems.length_eq
      obtain ⟨parts, hparts, htyped⟩ :=
        destructureList_typed (Schema.parts schema? ps.length) (Schema.length_parts _ _) elems hvs
      refine ⟨parts, ?_, htyped⟩
      rw [destructure, Value.components?_ofTuple]
      dsimp only
      rw [if_pos hlength, hparts]

theorem destructureList_typed {al : Aliases} : ∀ {ps : List Pattern} {τs : List Mono} {bs : Typings}
    {vs : List Value} (ss : List (Option Schema)), ss.length = ps.length → Pattern.TakesAll al ps τs bs →
      HasTys allowed G vs τs →
      ∃ parts, destructureList ps ss vs = .ok parts ∧ PartsTyped allowed G parts bs
  | [], _, _, _, _, _, h, hvs => by
    cases h
    cases hvs
    exact ⟨[], by simp [destructureList], .nil⟩
  | p :: ps, _, _, _, [], hlength, _, _ => by simp at hlength
  | p :: ps, _, _, _, s :: ss, hlength, h, hvs => by
    cases h with
    | cons head tail =>
      cases hvs with
      | cons hv hvs =>
        obtain ⟨parts, hparts, htyped⟩ := destructure_typed s head hv
        obtain ⟨more, hmore, htyped'⟩ := destructureList_typed ss (Nat.succ.inj hlength) tail hvs
        refine ⟨parts ++ more, ?_, htyped.append htyped'⟩
        rw [destructureList, hparts, hmore]
        rfl

end

end Pattern

theorem PartsTyped.eq_nil (h : PartsTyped allowed G [] bs) : bs = [] := by
  cases h
  rfl

theorem PartsTyped.eq_cons {part : Part} {parts : List Part} (h : PartsTyped allowed G (part :: parts) bs) :
    ∃ τ, bs = (part.name, τ) :: bs.tail ∧ HasTy allowed G part.value τ ∧ PartsTyped allowed G parts bs.tail := by
  cases h with
  | cons typed rest => exact ⟨_, rfl, typed, rest⟩

theorem EnvTy.bindParts {ι : Type} {parts : List Part} {bs : ι → Typings}
    (hparts : ∀ i, PartsTyped allowed G parts (bs i)) (h : EnvTy allowed G env Γ) :
    EnvTy allowed G (env.bindParts parts) (Γ.bindAny bs) := by
  induction parts generalizing env Γ bs with
  | nil =>
    refine h.restrict fun x τ ⟨i, hi⟩ => ?_
    rw [(hparts i).eq_nil] at hi
    exact hi
  | cons part parts ih =>
    -- the first part has, for each typing, the type that the typing starts with
    have hfirst : EnvTy allowed G (.value part.name part.schema? part.value :: env)
        fun x τ => if x = part.name then ∃ i, (bs i).head? = some (part.name, τ) else Γ x τ := by
      refine .value (fun τ ⟨i, hi⟩ => ?_) h fun x τ hx => hx
      obtain ⟨σ, heq, htyped, -⟩ := (hparts i).eq_cons
      rw [heq, List.head?_cons, Option.some.injEq, Prod.mk.injEq] at hi
      exact hi.2 ▸ htyped
    have hrest : ∀ i, PartsTyped allowed G parts (bs i).tail := fun i => by
      obtain ⟨_, _, _, hrest⟩ := (hparts i).eq_cons
      exact hrest
    refine (ih hrest hfirst).restrict fun x τ ⟨i, hi⟩ => ⟨i, ?_⟩
    obtain ⟨σ, heq, -⟩ := (hparts i).eq_cons
    rw [heq, Scope.bind_cons] at hi
    unfold Scope.bind at hi ⊢
    split
    · rename_i hget
      simpa only [hget] using hi
    · rename_i hget
      simp only [hget] at hi
      by_cases hx : x = part.name
      · subst hx
        simp only [List.reverse_cons, List.reverse_nil, List.nil_append, Table.get?, if_true] at hi ⊢
        exact ⟨i, by rw [heq, hi]; rfl⟩
      · simpa [Table.get?, hx, Ne.symm hx] using hi

/-! ## Recursive groups -/

/-- An expression that is a function has the type of one. -/
theorem HasType.asFunction {e : Expr} {ρ : Mono} (h : HasType al Γ e ρ) {p : Pattern}
    {body : Expr} (he : e.asFunction? = some (p, body)) :
    ∃ τ σ bs, ρ = .fn τ σ ∧ p.Takes al τ bs ∧ HasType al (Γ.bind bs) body σ := by
  fun_induction Expr.asFunction? e with
  | case1 _ p' body' =>
    cases he
    cases h with
    | lam param body => exact ⟨_, _, _, rfl, param, body⟩
  | case2 _ e _ ih =>
    cases h with
    | typed written inner => exact ih inner he
  | case3 _ e ih =>
    cases h with
    | paren inner => exact ih inner he
  | case4 => cases he

/-- The members of a recursive group, declaration by declaration. -/
inductive MembersOf : List Decl → List (Option Schema) → List Member → Prop
  | nil : MembersOf [] [] []
  | cons {d ds s ss ms name param body} (fn : Expr.asFunction? (Decl.body d) = some (param, body))
      (named : Pattern.names (Decl.pattern d) = [name]) (rest : MembersOf ds ss ms) :
    MembersOf (d :: ds) (s :: ss) (⟨name, s, param, body⟩ :: ms)

theorem MembersOf.typed (h : MembersOf ds ss ms) (htyped : HasMembers al Γ ds bs) : MembersTyped al Γ ms bs := by
  induction h generalizing bs with
  | nil =>
    cases htyped
    exact .nil
  | cons fn named rest ih =>
    cases htyped with
    | cons named' takes body rest' =>
      obtain ⟨τ, σ, bs', rfl, hparam, hbody⟩ := body.asFunction fn
      obtain rfl : _ = _ := List.head_eq_of_cons_eq (named.symm.trans named')
      exact .cons hparam hbody (ih rest')

theorem MembersOf.of_zip {fs : List (Decl × Pattern × Expr)} (hfs : fs.length = ds.length)
    (hds : ∀ e ∈ ds.zip fs, e.2.1 = e.1 ∧ e.1.body.asFunction? = some e.2.2) (hss : ss.length = ds.length)
    (hms : ms.length = (fs.zip ss).length) (hmembers : ∀ e ∈ (fs.zip ss).zip ms, e.1.1.1.pattern.names = [e.2.name] ∧
      e.2 = ⟨e.2.name, e.1.2, e.1.1.2.1, e.1.1.2.2⟩) : MembersOf ds ss ms := by
  induction ds generalizing fs ss ms with
  | nil =>
    obtain rfl := List.eq_nil_of_length_eq_zero hfs
    obtain rfl := List.eq_nil_of_length_eq_zero hss
    obtain rfl := List.eq_nil_of_length_eq_zero hms
    exact .nil
  | cons d ds ih =>
    match fs, ss, ms, hfs, hss, hms with
    | f :: fs, s :: ss, m :: ms, hfs, hss, hms =>
      obtain ⟨⟨hd, hfn⟩, hds⟩ := List.forall_mem_cons.1 hds
      obtain ⟨⟨hname, hm⟩, hmembers⟩ := List.forall_mem_cons.1 hmembers
      dsimp only at hd hfn hname hm
      rw [hm]
      exact .cons hfn (hd ▸ hname) (ih (Nat.succ.inj hfs) hds (Nat.succ.inj hss) (Nat.succ.inj hms) hmembers)

/-- The functions of a recursive group are its members, or the group is refused for its form. -/
theorem recursiveMembers_meets (hss : ss.length = ds.length) :
    Meets (fun e => e.fault.isShape = false) (recursiveMembers ds ss) (MembersOf ds ss) := by
  unfold recursiveMembers
  refine (Meets.mapM (R := fun d f => f.1 = d ∧ d.body.asFunction? = some f.2) (fun d => ?_) ds).bind
    fun fs ⟨hfs, hfn⟩ => ?_
  · split
    · rename_i f hf
      exact ⟨rfl, hf⟩
    · rfl
  · refine (Meets.mapM (R := fun f m => f.1.1.pattern.names = [m.name] ∧ m = ⟨m.name, f.2, f.1.2.1, f.1.2.2⟩)
      (fun f => ?_) (fs.zip ss)).imp fun ms ⟨hms, hmembers⟩ => ?_
    · obtain ⟨⟨d, param, body⟩, s⟩ := f
      dsimp only
      split
      · rename_i name hname
        exact ⟨hname, rfl⟩
      · rfl
    · exact .of_zip hfs hfn hss hms hmembers

end VeriScript
