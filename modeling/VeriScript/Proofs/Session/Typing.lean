import VeriScript.Proofs.Run.Typing
import VeriScript.Proofs.Session.Primitives
import VeriScript.Proofs.Value.Names
import VeriScript.Proofs.Value.Tags

/-!
# Sessions keep to their schemas

* `Session.TypedIn` — every name has a schema and a value that has all its instances, in a scope.
* `TypedIn.bindParts`, `TypedIn.enable` — what statements and actions do to sessions keeps that.
* `Part.Typed`, `Pattern.destructure_parts` — the parts of a value that has all the instances of a schema.
* `Pattern.destructure_distribute` — each variable has the part of the schema that belongs to it.
-/

namespace VeriScript

def anyCommand (_ : Command) : Prop := True

/-- Names with a value are those with a schema, and the value has all the instances of the schema, in a session
whose names have the types of `G`. -/
structure Session.TypedIn (G : Scope) (s : Session) : Prop where
  complete : s.typeEnv.Complete
  typed : ∀ x schema, Table.get? s.types x = some schema →
    ∃ v, Table.get? s.values x = some v ∧ ∀ ρ, HasTy anyCommand G v (schema.at ρ)
  named : ∀ x v, Table.get? s.values x = some v → ∃ schema, Table.get? s.types x = some schema

/-- The session keeps to its own schemas. -/
abbrev Session.Typed (s : Session) : Prop :=
  s.TypedIn s.typeEnv.scope

/-- The part has a schema, and all its instances. -/
def Part.Typed (G : Scope) (p : Part) : Prop :=
  ∃ schema, p.schema? = some schema ∧ schema.Complete ∧ ∀ ρ, HasTy anyCommand G p.value (schema.at ρ)

namespace Session.TypedIn

variable {G G' : Scope} {s : Session}

theorem initial (options : Options) : (Session.initial options).TypedIn G := by
  refine ⟨initial_complete options, fun x schema hx => ?_, fun x v hx => ?_⟩
  · simp only [Session.initial, primitiveTypes, get?_entries, Option.map_eq_some_iff] at hx ⊢
    obtain ⟨e, he, rfl⟩ := hx
    refine ⟨e.value, ⟨e, he, rfl⟩, primitives_typed _ _ e (mem_primitives_of_find? he).1 fun _ _ => trivial⟩
  · simp only [Session.initial, primitiveTypes, get?_entries, Option.map_eq_some_iff] at hx ⊢
    obtain ⟨e, he, -⟩ := hx
    exact ⟨e.schema, e, he, rfl⟩

variable (h : s.TypedIn G)
include h

theorem frame {s' : Session} (hvalues : s'.values = s.values) (htypes : s'.types = s.types)
    (haliases : s'.aliases = s.aliases) : s'.TypedIn G := by
  obtain ⟨hcomplete, htyped, hnamed⟩ := h
  refine ⟨?_, ?_, ?_⟩
  · rwa [Session.typeEnv, htypes, haliases]
  · rwa [htypes, hvalues]
  · rwa [htypes, hvalues]

/-- The names of the session have values of all their types. -/
theorem provides (hG : G.Below s.typeEnv.scope) : s.Provides anyCommand G := by
  intro x τ hx
  obtain ⟨schema, hschema, ρ, rfl⟩ := hG x τ hx
  obtain ⟨v, hv, htyped⟩ := h.typed x schema hschema
  exact ⟨v, hv, htyped ρ⟩

/-- Only the names that values of the session refer to matter. -/
theorem transfer (hG : ∀ x, (∃ y v, Table.get? s.values y = some v ∧ v.Refers x) → G.BelowAt G' x) :
    s.TypedIn G' := by
  refine ⟨h.complete, fun x schema hschema => ?_, h.named⟩
  obtain ⟨v, hv, htyped⟩ := h.typed x schema hschema
  exact ⟨v, hv, fun ρ => (htyped ρ).transfer fun y hy => hG y ⟨x, v, hv, hy⟩⟩

theorem mono (hG : G.Below G') : s.TypedIn G' :=
  h.transfer fun x _ τ => hG x τ

theorem addAlias {name : String} {t : Ty} (ht : t.Ground) : (s.addAlias name t).TypedIn G := by
  refine ⟨⟨h.complete.types, fun e he => ?_⟩, h.typed, h.named⟩
  obtain rfl | he := List.mem_cons.1 he
  · exact ht
  · exact h.complete.aliases e (Table.mem_of_mem_erase he)

theorem extend {p : Part} (hp : p.Typed G) : (s.extend p.name p.schema? p.value).TypedIn G := by
  obtain ⟨name, schema?, value⟩ := p
  obtain ⟨schema, rfl, hschema, hvalue⟩ := hp
  refine ⟨⟨fun e he => ?_, h.complete.aliases⟩, fun x schema' hx => ?_, fun x v hx => ?_⟩
  · obtain rfl | he := List.mem_cons.1 he
    · exact hschema
    · exact h.complete.types e (Table.mem_of_mem_erase he)
  · dsimp only [Session.extend] at hx ⊢
    by_cases hname : x = name
    · subst hname
      rw [Table.get?_insert_self] at hx ⊢
      cases hx
      exact ⟨value, rfl, hvalue⟩
    · rw [Table.get?_insert_of_ne hname] at hx ⊢
      exact h.typed x schema' hx
  · dsimp only [Session.extend] at hx ⊢
    by_cases hname : x = name
    · subst hname
      exact ⟨schema, Table.get?_insert_self ..⟩
    · rw [Table.get?_insert_of_ne hname] at hx ⊢
      exact h.named x v hx

theorem bindParts {parts : List Part} (hparts : ∀ p ∈ parts, p.Typed G) : (s.bindParts parts).TypedIn G := by
  induction parts generalizing s with
  | nil => exact h
  | cons p parts ih =>
    obtain ⟨hp, hparts⟩ := List.forall_mem_cons.1 hparts
    exact ih (h.extend hp) hparts

/-! ### Primitives -/

/-- New primitives take the names that are free; as a name has a value just if it has a schema, it gets both or
none. -/
theorem enable (life : Lifecycle) : (s.enable life).TypedIn G := by
  have hvalues : ∀ x, Table.get? (s.enable life).values x =
      (Table.get? s.values x).or (((available [life]).find? (·.name == x)).map (·.value)) := fun x => by
    rw [Session.enable, get?_addMissing, get?_entries]
  have htypes : ∀ x, Table.get? (s.enable life).types x =
      (Table.get? s.types x).or (((available [life]).find? (·.name == x)).map (·.schema)) := fun x => by
    rw [Session.enable, get?_addMissing, primitiveTypes, get?_entries]
  refine ⟨⟨?_, h.complete.aliases⟩, fun x schema hx => ?_, fun x v hx => ?_⟩
  · refine List.forall_mem_append.2 ⟨h.complete.types, fun e he => ?_⟩
    exact primitiveTypes_complete [life] e (List.mem_filter.1 he).1
  · rw [htypes] at hx
    cases hold : Table.get? s.types x with
    | some schema' =>
      rw [hold, Option.some_or] at hx
      cases hx
      obtain ⟨v, hv, htyped⟩ := h.typed x schema hold
      exact ⟨v, by rw [hvalues, hv, Option.some_or], htyped⟩
    | none =>
      rw [hold, Option.none_or, Option.map_eq_some_iff] at hx
      obtain ⟨e, he, rfl⟩ := hx
      have hfree : Table.get? s.values x = none := by
        cases hv : Table.get? s.values x with
        | none => rfl
        | some v =>
          obtain ⟨schema, hschema⟩ := h.named x v hv
          rw [hold] at hschema
          cases hschema
      refine ⟨e.value, by rw [hvalues, hfree, he]; rfl, ?_⟩
      exact primitives_typed _ _ e (mem_primitives_of_find? he).1 fun _ _ => trivial
  · rw [hvalues] at hx
    rw [htypes]
    cases hold : Table.get? s.values x with
    | some v' =>
      obtain ⟨schema, hschema⟩ := h.named x v' hold
      exact ⟨schema, by rw [hschema, Option.some_or]⟩
    | none =>
      rw [hold, Option.none_or, Option.map_eq_some_iff] at hx
      obtain ⟨e, he, -⟩ := hx
      cases Table.get? s.types x with
      | some schema => exact ⟨schema, rfl⟩
      | none => exact ⟨e.schema, by rw [he]; rfl⟩

end Session.TypedIn

/-! ## Parts -/

/-- A tuple that has all the instances of a schema: so have its components. -/
theorem Schema.Complete.components {G : Scope} {vars : List String} {t : Ty} {v : Value} {items : List Value}
    (hs : Schema.Complete ⟨vars, t⟩) (h : ∀ ρ, HasTy anyCommand G v (Schema.at ⟨vars, t⟩ ρ))
    (hv : v.components? = some items) :
    ∃ ts, t = .tuple ts ∧ (∀ u ∈ ts, Schema.Complete ⟨vars, u⟩) ∧
      ∀ ρ, HasTys anyCommand G items (ts.map (Ty.denote (fun _ => .unit) ρ)) := by
  obtain ⟨ts, rfl⟩ := (HasTy.fits hs h).eq_tuple hv
  refine ⟨ts, rfl, fun u hu => ⟨fun x hx => ?_, fun i hi => ?_⟩, fun ρ => ?_⟩
  · exact hs.closed x (Ty.mem_varNames_con.2 ⟨u, hu, hx⟩)
  · exact hs.noHoles i (Ty.mem_holes_con.2 ⟨u, hu, hi⟩)
  · have hρ := h ρ
    rw [Schema.at, Ty.denote, Ty.denoteList_eq] at hρ
    obtain ⟨vs, rfl, hvs⟩ := hρ.tuple_inv
    rw [Value.components?_ofTuple] at hv
    cases hv
    exact hvs

theorem exists_ok_of_bind {ε α β : Type} {x : Except ε α} {f : α → Except ε β} {b : β} (h : x >>= f = .ok b) :
    ∃ a, x = .ok a ∧ f a = .ok b := by
  cases x with
  | ok a => exact ⟨a, rfl, h⟩
  | error e => cases h

namespace Pattern

mutual

theorem destructure_parts {G : Scope} : ∀ (p : Pattern) {schema : Schema} {v : Value} {parts : List Part},
    schema.Complete → (∀ ρ, HasTy anyCommand G v (schema.at ρ)) → p.destructure (some schema) v = .ok parts →
    ∀ q ∈ parts, q.Typed G
  | .wildcard _ _, _, _, _, _, _, h => by
    cases h
    nofun
  | .var _ name _, schema, v, _, hs, hv, h => by
    cases h
    exact List.forall_mem_singleton.2 ⟨schema, rfl, hs, hv⟩
  | .paren _ inner _, _, _, _, hs, hv, h => inner.destructure_parts hs hv h
  | .tuple _ ps _, ⟨vars, t⟩, v, _, hs, hv, h => by
    rw [destructure] at h
    split at h
    · rename_i items hitems
      split at h
      · rename_i hlength
        obtain ⟨ts, rfl, hts, htyped⟩ := hs.components hv hitems
        have hparts : Schema.parts (some ⟨vars, .tuple ts⟩) ps.length = ts.map fun t => some ⟨vars, t⟩ := by
          have := (htyped .var).length_eq
          simp only [List.length_map] at this
          simp [Schema.parts, ← this, hlength]
        rw [hparts] at h
        exact destructureList_parts ps hts htyped h
      · cases h
    · cases h

theorem destructureList_parts {G : Scope} :
    ∀ (ps : List Pattern) {vars : List String} {ts : List Ty} {vs : List Value} {parts : List Part},
    (∀ t ∈ ts, Schema.Complete ⟨vars, t⟩) → (∀ ρ, HasTys anyCommand G vs (ts.map (Ty.denote (fun _ => .unit) ρ))) →
    destructureList ps (ts.map fun t => some ⟨vars, t⟩) vs = .ok parts → ∀ q ∈ parts, q.Typed G
  | [], _, _, _, _, _, _, h => by
    cases h
    nofun
  | p :: ps, vars, [], _, _, _, _, h => by
    cases h
    nofun
  | p :: ps, vars, t :: ts, [], _, _, _, h => by
    cases h
    nofun
  | p :: ps, vars, t :: ts, v :: vs, _, hts, hvs, h => by
    obtain ⟨ht, hts⟩ := List.forall_mem_cons.1 hts
    rw [List.map_cons, destructureList] at h
    obtain ⟨parts, hparts, h⟩ := exists_ok_of_bind h
    obtain ⟨more, hmore, h⟩ := exists_ok_of_bind h
    cases h
    have hhead : ∀ ρ, HasTy anyCommand G v (Schema.at ⟨vars, t⟩ ρ) := fun ρ => by
      cases hvs ρ with
      | cons head tail => exact head
    have htail : ∀ ρ, HasTys anyCommand G vs (ts.map (Ty.denote (fun _ => .unit) ρ)) := fun ρ => by
      cases hvs ρ with
      | cons head tail => exact tail
    exact List.forall_mem_append.2 ⟨p.destructure_parts ht hhead hparts, destructureList_parts ps hts htail hmore⟩

end

mutual

theorem destructure_distribute {schema? : Option Schema} {v : Value} {parts : List Part} : ∀ p : Pattern,
    p.destructure schema? v = .ok parts → parts.map (fun q => (q.name, q.schema?)) = p.distribute schema?
  | .wildcard _ _, h => by
    cases h
    rfl
  | .var _ _ _, h => by
    cases h
    rfl
  | .paren _ inner _, h => destructure_distribute inner h
  | .tuple _ elems _, h => by
    rw [destructure] at h
    split at h
    · split at h
      · rename_i items _ hlength
        exact destructureList_distribute elems (Schema.length_parts _ _) hlength h
      · cases h
    · cases h

theorem destructureList_distribute :
    ∀ (ps : List Pattern) {ss : List (Option Schema)} {vs : List Value} {parts : List Part}, ss.length = ps.length →
    vs.length = ps.length → destructureList ps ss vs = .ok parts →
    parts.map (fun q => (q.name, q.schema?)) = distributeList ps ss
  | [], _, _, _, _, _, h => by
    cases h
    rfl
  | p :: ps, s :: ss, v :: vs, _, hss, hvs, h => by
    rw [destructureList] at h
    obtain ⟨parts, hparts, h⟩ := exists_ok_of_bind h
    obtain ⟨more, hmore, h⟩ := exists_ok_of_bind h
    cases h
    rw [List.map_append, destructure_distribute p hparts,
      destructureList_distribute ps (Nat.succ.inj hss) (Nat.succ.inj hvs) hmore, distributeList]

end

theorem destructure_names {schema? : Option Schema} {v : Value} {parts : List Part} (p : Pattern)
    (h : p.destructure schema? v = .ok parts) : parts.map (·.name) = p.names := by
  rw [← p.names_distribute schema?, ← p.destructure_distribute h, List.map_map]
  rfl

end Pattern

/-! ## Environments become parts of the session -/

theorem Session.merge_bindParts (s : Session) (env : Env) (parts : List Part) :
    s.merge (env.bindParts parts) = (s.merge env).bindParts parts := by
  induction parts generalizing env with
  | nil => rfl
  | cons p parts ih => exact ih _

theorem Session.bindPattern_eq_ok_iff {s s' : Session} {p : Pattern} {schema? : Option Schema} {v : Value} :
    s.bindPattern p schema? v = .ok s' ↔ ∃ parts, p.destructure schema? v = .ok parts ∧ s' = s.bindParts parts := by
  unfold Session.bindPattern
  cases p.destructure schema? v with
  | error e => simp [Except.map]
  | ok parts => simp [Except.map, eq_comm]

/-- The functions of a recursive group as parts. -/
def memberParts (members : List Member) : List Part :=
  members.map fun m => ⟨m.name, m.schema?, m.value [.recursive members]⟩

theorem Session.merge_recursive (s : Session) (members : List Member) :
    s.merge [.recursive members] = s.bindParts (memberParts members) := by
  rw [Session.merge, Session.merge, Session.bindParts, memberParts, List.foldl_map]

theorem Session.values_extend (s : Session) (name : String) (schema? : Option Schema) (v : Value) :
    (s.extend name schema? v).values = Table.insert s.values name v := rfl

theorem Session.isSome_bindParts {s : Session} {parts : List Part} {x : String}
    (h : (Table.get? s.values x).isSome ∨ x ∈ parts.map (·.name)) :
    (Table.get? (s.bindParts parts).values x).isSome := by
  induction parts generalizing s with
  | nil => simpa [Session.bindParts] using h
  | cons p parts ih =>
    refine ih ?_
    by_cases hx : x = p.name
    · exact .inl (by rw [hx, Session.values_extend, Table.get?_insert_self]; rfl)
    · rw [Session.values_extend, Table.get?_insert_of_ne hx]
      refine h.imp_right fun h => ?_
      rw [List.map_cons] at h
      exact (List.mem_cons.1 h).resolve_left hx

end VeriScript
