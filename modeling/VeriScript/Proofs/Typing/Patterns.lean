import VeriScript.Proofs.Script.Names
import VeriScript.Proofs.Ty.Equality

/-!
# Patterns and inference

* `inferPattern_sound` — what inference finds for a pattern follows the rules.
* `distribute_parts` — a schema that a pattern takes is split into one schema for each name of the pattern.
-/

namespace VeriScript

open Ty (NoVars Solves Solved under Ground)
open TypeEnv (typingsUnder)

namespace Check

variable {st : CheckState} {env : TypeEnv}

/-! ## Patterns -/

theorem declared_yields (henv : env.Closed) {type? : Option Ty} (ht : ∀ t ∈ type?, t.Ground)
    (span : Option Span) :
    Yields (type?.mapM (resolve env · span)) st fun declared st' => st' = st ∧
      (∀ u ∈ declared, u.Ground) ∧ ∀ t ∈ type?, ∃ u ∈ declared, ∀ θ, Ascribes env.aliases t (u.under θ) := by
  cases type? with
  | none => exact ⟨rfl, nofun, nofun⟩
  | some t =>
    show Yields (do return some (← resolve env t span)) st _
    refine (resolve_yields henv (ht t rfl)).bind fun u st' ⟨hst, hu, _, hascribes⟩ => ⟨hst, ?_, ?_⟩
    · rintro _ ⟨⟩
      exact hu
    · rintro _ ⟨⟩
      exact ⟨u, rfl, hascribes⟩

/-- A type that is written on a pattern is unified with the type of the pattern. -/
theorem declared_unify_yields {type? declared : Option Ty} {t : Ty} {span : Option Span} (hst : Solved st.bindings)
    (ht : t.NoVars) (hdeclared : ∀ u ∈ declared, u.Ground)
    (hascribes : ∀ t ∈ type?, ∃ u ∈ declared, ∀ θ, Ascribes env.aliases t (u.under θ))
    {α : Type} {k : Unit → Check α} {Q : α → CheckState → Prop}
    (hk : ∀ st', st.Reached st' → (∀ θ, Solves θ st'.bindings → ∀ u ∈ type?, Ascribes env.aliases u (t.under θ)) →
      Yields (k ()) st' Q) :
    Yields (match declared with
      | some d => do
        let r ← unify d t span
        k r
      | _ => k ()) st Q := by
  cases declared with
  | none =>
    refine hk st (.refl hst) fun θ _ u hu => ?_
    obtain ⟨_, ⟨⟩, _⟩ := hascribes u hu
  | some d =>
    refine (unify_yields hst (hdeclared d rfl).2 ht).bind fun _ st' ⟨hr, heq⟩ => ?_
    refine hk st' hr fun θ hθ u hu => ?_
    obtain ⟨_, ⟨⟩, h⟩ := hascribes u hu
    exact heq θ hθ ▸ h θ

mutual

theorem inferPattern_sound (henv : env.Closed) : ∀ (p : Pattern), p.AllTypes Ground → ∀ {st : CheckState},
    Solved st.bindings → Yields (inferPattern env p) st fun r st' =>
      st.Reached st' ∧ r.1.NoVars ∧ (∀ b ∈ r.2, b.2.NoVars) ∧
        ∀ θ, Solves θ st'.bindings → p.Takes env.aliases (r.1.under θ) (typingsUnder θ r.2)
  | .wildcard span none, hp, st, hst => by
    unfold inferPattern
    exact (fresh_yields hst).bind fun t st' ⟨hr, ht⟩ => ⟨hr, ht, nofun, fun θ _ => .wildcard nofun⟩
  | .wildcard span (some t), hp, st, hst => by
    unfold inferPattern
    refine (resolve_yields henv (hp t rfl)).bind ?_
    rintro u _ ⟨rfl, hu, -, hascribes⟩
    exact ⟨.refl hst, hu.2, nofun, fun θ _ => .wildcard fun _ h => Option.some.inj h ▸ hascribes θ⟩
  | .var span name none, hp, st, hst => by
    unfold inferPattern
    exact (fresh_yields hst).bind fun t st' ⟨hr, ht⟩ =>
      ⟨hr, ht, by simpa using ht, fun θ _ => .var nofun⟩
  | .var span name (some t), hp, st, hst => by
    unfold inferPattern
    refine (resolve_yields henv (hp t rfl)).bind ?_
    rintro u _ ⟨rfl, hu, -, hascribes⟩
    exact ⟨.refl hst, hu.2, by simpa using hu.2,
      fun θ _ => .var fun _ h => Option.some.inj h ▸ hascribes θ⟩
  | .paren span inner type?, hp, st, hst => by
    unfold inferPattern
    refine (declared_yields henv hp.1 _).bind ?_
    rintro declared _ ⟨rfl, hground, hascribes⟩
    refine (inferPattern_sound henv inner hp.2 hst).bind fun r st1 ⟨hr, ht, hbinds, htakes⟩ => ?_
    refine declared_unify_yields hr.solved ht hground hascribes fun st2 hr' hwritten => ?_
    exact ⟨hr.trans hr', ht, hbinds, fun θ hθ => .paren (hwritten θ hθ) (htakes θ (hr'.solves hθ))⟩
  | .tuple span elems type?, hp, st, hst => by
    unfold inferPattern
    refine (declared_yields henv hp.1 _).bind ?_
    rintro declared _ ⟨rfl, hground, hascribes⟩
    refine (inferPatterns_sound henv elems hp.2 hst).bind fun r st1 ⟨hr, hts, hbinds, htakes⟩ => ?_
    have ht : (Ty.tuple r.1).NoVars := fun x hx => by
      obtain ⟨t, ht, hx⟩ := Ty.mem_varNames_con.1 hx
      exact hts t ht x hx
    have hunder : ∀ θ, (Ty.tuple r.1).under θ = .tuple (r.1.map (under θ)) := fun θ => by
      simp [under, Ty.denote]
    refine declared_unify_yields hr.solved ht hground hascribes fun st2 hr' hwritten => ?_
    refine ⟨hr.trans hr', ht, hbinds, fun θ hθ => ?_⟩
    have hwritten := hwritten θ hθ
    rw [hunder θ] at hwritten ⊢
    exact .tuple hwritten (htakes θ (hr'.solves hθ))

theorem inferPatterns_sound (henv : env.Closed) : ∀ (ps : List Pattern), Pattern.AllTypesList Ground ps →
    ∀ {st : CheckState}, Solved st.bindings → Yields (inferPatterns env ps) st fun r st' =>
      st.Reached st' ∧ (∀ t ∈ r.1, t.NoVars) ∧ (∀ b ∈ r.2, b.2.NoVars) ∧
        ∀ θ, Solves θ st'.bindings → Pattern.TakesAll env.aliases ps (r.1.map (under θ)) (typingsUnder θ r.2)
  | [], _, st, hst => by
    unfold inferPatterns
    exact ⟨.refl hst, nofun, nofun, fun _ _ => .nil⟩
  | p :: ps, hps, st, hst => by
    unfold inferPatterns
    refine (inferPattern_sound henv p hps.1 hst).bind fun r st1 ⟨hr, ht, hbinds, htakes⟩ => ?_
    dsimp only
    refine (inferPatterns_sound henv ps hps.2 hr.solved).bind fun r' st2 ⟨hr', hts, hbinds', htakes'⟩ => ?_
    refine ⟨hr.trans hr', List.forall_mem_cons.2 ⟨ht, hts⟩, List.forall_mem_append.2 ⟨hbinds, hbinds'⟩,
      fun θ hθ => ?_⟩
    rw [typingsUnder, List.map_append]
    exact .cons (htakes θ (hr'.solves hθ)) (htakes' θ hθ)

end

/-! ## Parts of a schema -/

/-- A type that a tuple pattern takes whatever its holes and variables are is a tuple type as it stands. -/
theorem eq_tuple_of_takes {al : Aliases} {span : Span} {ps : List Pattern} {type? : Option Ty} {t : Ty}
    (h : ∀ θ ρ, ∃ bs, (Pattern.tuple span ps type?).Takes al (t.denote θ ρ) bs) :
    ∃ ts, t = .tuple ts ∧ ts.length = ps.length ∧
      ∀ θ ρ bs, (Pattern.tuple span ps type?).Takes al (t.denote θ ρ) bs →
        Pattern.TakesAll al ps (ts.map (·.denote θ ρ)) bs := by
  have hshape : ∃ ts, t = .tuple ts := by
    obtain ⟨bs, htakes⟩ := h (fun _ => .con "" []) (fun _ => .con "" [])
    generalize hτ : t.denote (fun _ => .con "" []) (fun _ => .con "" []) = τ at htakes
    cases htakes
    cases t with
    | con name args =>
      simp only [Ty.denote, Mono.con.injEq] at hτ
      exact ⟨args, by rw [hτ.1]⟩
    | _ => simp [Ty.denote] at hτ
  obtain ⟨ts, rfl⟩ := hshape
  have htakes : ∀ θ ρ bs, (Pattern.tuple span ps type?).Takes al ((Ty.tuple ts).denote θ ρ) bs →
      Pattern.TakesAll al ps (ts.map (·.denote θ ρ)) bs := by
    intro θ ρ bs h
    generalize hτ : (Ty.tuple ts).denote θ ρ = τ at h
    cases h with
    | tuple written elems =>
      simp only [Ty.denote, Ty.denoteList_eq, Mono.con.injEq, true_and] at hτ
      exact hτ ▸ elems
  obtain ⟨bs, hbs⟩ := h (fun _ => .con "" []) (fun _ => .con "" [])
  have hlength := (htakes _ _ bs hbs).length_eq
  exact ⟨ts, rfl, by simpa using hlength, htakes⟩

/-- The parts of a schema among the names of a pattern. -/
structure Parts (s : Schema) (distributed : List (String × Option Schema)) (parts : List (String × Schema)) :
    Prop where
  distributed : distributed = parts.map fun e => (e.1, some e.2)
  vars : ∀ e ∈ parts, e.2.vars = s.vars
  varNames : ∀ e ∈ parts, ∀ x ∈ e.2.type.varNames, x ∈ s.type.varNames

mutual

theorem distribute_parts {al : Aliases} : ∀ (p : Pattern) (s : Schema),
    (∀ θ ρ, ∃ bs, p.Takes al (s.type.denote θ ρ) bs) →
    ∃ parts, Parts s (p.distribute (some s)) parts ∧
      ∀ θ ρ bs, p.Takes al (s.type.denote θ ρ) bs → bs = parts.map fun e => (e.1, e.2.type.denote θ ρ)
  | .wildcard _ _, s, h => ⟨[], ⟨rfl, nofun, nofun⟩, fun _ _ _ h => by cases h; rfl⟩
  | .var _ name _, s, h => by
    refine ⟨[(name, s)], ⟨rfl, by simp, by simp⟩, fun θ ρ bs h => ?_⟩
    cases h
    rfl
  | .paren span inner type?, s, h => by
    have hinner : ∀ {θ ρ bs}, (Pattern.paren span inner type?).Takes al (s.type.denote θ ρ) bs →
        inner.Takes al (s.type.denote θ ρ) bs := fun h => by cases h; assumption
    obtain ⟨parts, hparts, htakes⟩ := distribute_parts inner s fun θ ρ => (h θ ρ).imp fun _ => hinner
    exact ⟨parts, hparts, fun θ ρ bs h => htakes θ ρ bs (hinner h)⟩
  | .tuple _ ps _, ⟨vars, t⟩, h => by
    obtain ⟨ts, rfl, hlength, htakes⟩ := eq_tuple_of_takes h
    obtain ⟨parts, hparts, hbs⟩ := distributeList_parts ps vars ts hlength
      fun θ ρ => (h θ ρ).imp fun bs => htakes θ ρ bs
    refine ⟨parts, ⟨?_, hparts.vars, fun e he x hx => ?_⟩, fun θ ρ bs h => hbs θ ρ bs (htakes θ ρ bs h)⟩
    · rw [← hparts.distributed]
      simp [Pattern.distribute, Schema.parts, hlength]
    · exact hparts.varNames e he x hx

theorem distributeList_parts {al : Aliases} : ∀ (ps : List Pattern) (vars : List String) (ts : List Ty),
    ts.length = ps.length → (∀ θ ρ, ∃ bs, Pattern.TakesAll al ps (ts.map (·.denote θ ρ)) bs) →
    ∃ parts, Parts ⟨vars, .tuple ts⟩ (Pattern.distributeList ps (ts.map fun t => some ⟨vars, t⟩)) parts ∧
      ∀ θ ρ bs, Pattern.TakesAll al ps (ts.map (·.denote θ ρ)) bs →
        bs = parts.map fun e => (e.1, e.2.type.denote θ ρ)
  | [], vars, ts, hlength, h => by
    obtain rfl := List.eq_nil_of_length_eq_zero hlength
    exact ⟨[], ⟨rfl, nofun, nofun⟩, fun _ _ _ h => by cases h; rfl⟩
  | p :: ps, vars, [], hlength, h => by cases hlength
  | p :: ps, vars, t :: ts, hlength, h => by
    have hsplit : ∀ {θ ρ bs}, Pattern.TakesAll al (p :: ps) ((t :: ts).map (·.denote θ ρ)) bs →
        ∃ bs1 bs2, bs = bs1 ++ bs2 ∧ p.Takes al (t.denote θ ρ) bs1 ∧
          Pattern.TakesAll al ps (ts.map (·.denote θ ρ)) bs2 := by
      intro θ ρ bs h
      cases h with
      | cons head tail => exact ⟨_, _, rfl, head, tail⟩
    obtain ⟨parts, hparts, hbs⟩ := distribute_parts p ⟨vars, t⟩ fun θ ρ => by
      obtain ⟨_, hall⟩ := h θ ρ
      obtain ⟨bs1, _, _, hhead, _⟩ := hsplit hall
      exact ⟨bs1, hhead⟩
    obtain ⟨more, hmore, hbs'⟩ := distributeList_parts ps vars ts (Nat.succ.inj hlength) fun θ ρ => by
      obtain ⟨_, hall⟩ := h θ ρ
      obtain ⟨_, bs2, _, _, htail⟩ := hsplit hall
      exact ⟨bs2, htail⟩
    refine ⟨parts ++ more, ⟨?_, ?_, ?_⟩, fun θ ρ bs h => ?_⟩
    · rw [List.map_append, ← hparts.distributed, ← hmore.distributed]
      rfl
    · exact List.forall_mem_append.2 ⟨hparts.vars, hmore.vars⟩
    · simp only [Ty.mem_varNames_con, List.mem_cons, exists_eq_or_imp]
      refine List.forall_mem_append.2 ⟨fun e he x hx => .inl (hparts.varNames e he x hx), fun e he x hx => ?_⟩
      exact .inr (Ty.mem_varNames_con.1 (hmore.varNames e he x hx))
    · obtain ⟨bs1, bs2, rfl, hhead, htail⟩ := hsplit h
      rw [List.map_append, ← hbs θ ρ bs1 hhead, ← hbs' θ ρ bs2 htail]

end

variable {parts : List (String × Schema)} {p : Pattern} {s : Schema}

theorem bindPattern_eq (h : Parts s (p.distribute (some s)) parts) : bindPattern env p s = env.bindAll parts := by
  unfold bindPattern
  rw [h.distributed, List.filterMap_map]
  exact congrArg env.bindAll List.filterMap_some

theorem bindPattern_closed (henv : env.Closed)
    (hs : ∀ x ∈ s.type.varNames, x ∈ s.vars) (h : Parts s (p.distribute (some s)) parts) :
    (bindPattern env p s).Closed := by
  rw [bindPattern_eq h]
  refine henv.bindAll fun e he x hx => ?_
  rw [h.vars e he]
  exact hs x (h.varNames e he x hx)

/-- Behind a pattern, names have the types of the instances of its schema. -/
theorem under_bindPattern_below (h : Parts s (p.distribute (some s)) parts) (θ : Nat → Mono) :
    ((bindPattern env p s).under θ).Below
      ((env.under θ).bindAny fun ρ => parts.map fun e => (e.1, e.2.type.denote θ ρ)) := by
  rintro x τ ⟨s', hs', ρ, rfl⟩
  rw [bindPattern_eq h, TypeEnv.get?_bindAll] at hs'
  refine ⟨ρ, ?_⟩
  unfold Scope.bind
  rw [← List.map_reverse, Table.get?_map (fun s : Schema => s.type.denote θ ρ)]
  cases hget : Table.get? parts.reverse x with
  | none =>
    rw [hget, Option.none_or] at hs'
    exact ⟨s', hs', ρ, rfl⟩
  | some part =>
    rw [hget] at hs'
    cases hs'
    rfl

end Check

end VeriScript
