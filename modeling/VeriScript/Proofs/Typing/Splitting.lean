import VeriScript.Proofs.Typing.Fitting
import VeriScript.Proofs.Typing.Tracing

/-!
# Patterns split the schemas of their declarations

A declaration that inference accepts has a tuple type wherever its pattern has a tuple, so that every variable of the
pattern has a part of its schema.

* `Pattern.Splits` — there is a tuple type for every tuple of a pattern.
* `Pattern.distribute_eq` — a schema with such a type has a part for every variable.
* `Check.inferGroup_records` — what a group that is not recursive records.
-/

namespace VeriScript

open Ty (Layered Alike)

mutual

/-- The type is a tuple, with as many components, wherever the pattern is one. -/
def Pattern.Splits : Pattern → Ty → Prop
  | .wildcard _ _, _ | .var _ _ _, _ => True
  | .paren _ inner _, t => inner.Splits t
  | .tuple _ elems _, t => ∃ ts, t = .tuple ts ∧ Pattern.SplitsList elems ts

def Pattern.SplitsList : List Pattern → List Ty → Prop
  | p :: ps, t :: ts => p.Splits t ∧ Pattern.SplitsList ps ts
  | [], [] => True
  | _, _ => False

end

namespace Pattern

theorem SplitsList.length_eq : ∀ {ps : List Pattern} {ts : List Ty}, SplitsList ps ts → ts.length = ps.length
  | [], [], _ => rfl
  | _ :: _, _ :: _, h => congrArg Nat.succ (length_eq h.2)

/-! ## Types that a pattern splits -/

/-- Only tuples, of related components, are related to tuples. -/
def KeepsTuples (Q : Ty → Ty → Prop) : Prop :=
  ∀ ts u, Q (.tuple ts) u → ∃ us, u = .tuple us ∧ us.length = ts.length ∧ ∀ e ∈ ts.zip us, Q e.1 e.2

mutual

theorem Splits.related {Q : Ty → Ty → Prop} (hQ : KeepsTuples Q) {t u : Ty} : ∀ {p : Pattern}, p.Splits t → Q t u →
    p.Splits u
  | .wildcard _ _, _, _ | .var _ _ _, _, _ => trivial
  | .paren _ inner _, h, htu => Splits.related hQ (p := inner) h htu
  | .tuple _ elems _, h, htu => by
    obtain ⟨ts, rfl, hts⟩ := h
    obtain ⟨us, rfl, hlength, hus⟩ := hQ ts u htu
    exact ⟨us, rfl, SplitsList.related hQ hts hlength hus⟩

theorem SplitsList.related {Q : Ty → Ty → Prop} (hQ : KeepsTuples Q) : ∀ {ps : List Pattern} {ts us : List Ty},
    SplitsList ps ts → us.length = ts.length → (∀ e ∈ ts.zip us, Q e.1 e.2) → SplitsList ps us
  | [], [], [], _, _, _ => trivial
  | _ :: _, _ :: _, _ :: _, h, hlength, hQs => by
    obtain ⟨hfirst, hrest⟩ := List.forall_mem_cons.1 hQs
    exact ⟨Splits.related hQ h.1 hfirst, SplitsList.related hQ h.2 (Nat.succ.inj hlength) hrest⟩

end

variable {p : Pattern}

theorem Splits.alike {t u : Ty} (h : p.Splits t) (htu : Alike t u) : p.Splits u := by
  have hkeeps : KeepsTuples Alike := by
    intro ts u htu
    cases htu with
    | con length args => exact ⟨_, rfl, length.symm, args⟩
  exact Splits.related hkeeps h htu

theorem Splits.map {t : Ty} (h : p.Splits t) {f : Ty → Ty}
    (hf : ∀ ts, f (.tuple ts) = .tuple (ts.map f)) : p.Splits (f t) := by
  have hkeeps : KeepsTuples fun t u => u = f t := by
    rintro ts _ rfl
    refine ⟨ts.map f, hf ts, List.length_map f, fun e he => ?_⟩
    rw [List.zip_map_right] at he
    obtain ⟨q, hq, rfl⟩ := List.mem_map.1 he
    rw [List.zip_eq_zipWith, List.zipWith_self] at hq
    obtain ⟨a, _, rfl⟩ := List.mem_map.1 hq
    rfl
  exact Splits.related hkeeps h rfl

/-- Generalising a type leaves its tuples as they are. -/
theorem Splits.generalizeOver {t : Ty} (h : p.Splits t) (kept : List Nat) : p.Splits (t.generalizeOver kept).type := by
  unfold Ty.generalizeOver
  dsimp only
  generalize (t.holes.filter fun id => !kept.contains id).zip _ = pairs
  induction pairs generalizing t with
  | nil => exact h
  | cons e pairs ih => exact ih (h.map fun ts => by simp [Ty.tuple, Ty.fill])

/-! ## Parts for all variables -/

mutual

theorem distribute_eq : ∀ (p : Pattern) (vars : List String) (t : Ty), p.Splits t →
    ∃ recorded : List (String × Schema), p.distribute (some ⟨vars, t⟩) = recorded.map fun e => (e.1, some e.2)
  | .wildcard _ _, _, _, _ => ⟨[], rfl⟩
  | .var _ name _, vars, t, _ => ⟨[(name, ⟨vars, t⟩)], rfl⟩
  | .paren _ inner _, vars, t, h => distribute_eq inner vars t h
  | .tuple _ elems _, vars, _, h => by
    obtain ⟨ts, rfl, hts⟩ := h
    have hparts : Schema.parts (some ⟨vars, .tuple ts⟩) elems.length = ts.map fun t => some ⟨vars, t⟩ := by
      simp [Schema.parts, Ty.tuple, hts.length_eq]
    rw [distribute, hparts]
    exact distributeList_eq elems vars ts hts

theorem distributeList_eq : ∀ (ps : List Pattern) (vars : List String) (ts : List Ty), SplitsList ps ts →
    ∃ recorded : List (String × Schema), distributeList ps (ts.map fun t => some ⟨vars, t⟩) = recorded.map fun e =>
      (e.1, some e.2)
  | [], _, [], _ => ⟨[], rfl⟩
  | p :: ps, vars, t :: ts, h => by
    obtain ⟨first, hfirst⟩ := distribute_eq p vars t h.1
    obtain ⟨rest, hrest⟩ := distributeList_eq ps vars ts h.2
    refine ⟨first ++ rest, ?_⟩
    rw [List.map_cons, distributeList, hfirst, hrest, List.map_append]

end

end Pattern

/-! ## Inference -/

namespace Check

variable {α : Type} {env env' : TypeEnv} {st st' : CheckState} {span : Option Span}

theorem result_of_declared_unify {declared : Option Ty} {t : Ty} {a b : α}
    (h : (match declared with
      | some d => do
        let r ← unify d t span
        (fun _ => pure a) r
      | _ => pure a : Check α) st = .ok b st') : b = a := by
  cases declared with
  | none =>
    cases h
    rfl
  | some d =>
    obtain ⟨_, _, _, h⟩ := exists_of_bind_ok h
    cases h
    rfl

mutual

/-- The type that is found for a pattern is a tuple wherever the pattern is. -/
theorem inferPattern_splits {r : Ty × List (String × Ty)} {st st' : CheckState} : ∀ p : Pattern,
    inferPattern env p st = .ok r st' → p.Splits r.1
  | .wildcard _ _, _ | .var _ _ _, _ => trivial
  | .paren span inner type?, h => by
    unfold inferPattern at h
    obtain ⟨declared, st1, _, h⟩ := exists_of_bind_ok h
    obtain ⟨r', st2, hinner, h⟩ := exists_of_bind_ok h
    obtain rfl := result_of_declared_unify h
    exact inferPattern_splits inner hinner
  | .tuple span elems type?, h => by
    unfold inferPattern at h
    obtain ⟨declared, st1, _, h⟩ := exists_of_bind_ok h
    obtain ⟨r', st2, helems, h⟩ := exists_of_bind_ok h
    obtain rfl := result_of_declared_unify h
    exact ⟨r'.1, rfl, inferPatterns_splits elems helems⟩

theorem inferPatterns_splits {r : List Ty × List (String × Ty)} {st st' : CheckState} : ∀ ps : List Pattern,
    inferPatterns env ps st = .ok r st' → Pattern.SplitsList ps r.1
  | [], h => by
    unfold inferPatterns at h
    cases h
    trivial
  | p :: ps, h => by
    unfold inferPatterns at h
    obtain ⟨first, st1, hfirst, h⟩ := exists_of_bind_ok h
    obtain ⟨rest, st2, hrest, h⟩ := exists_of_bind_ok h
    cases h
    exact ⟨inferPattern_splits p hfirst, inferPatterns_splits ps hrest⟩

end

variable {p : Pattern}

/-- The pattern of a declaration splits the type of its schema. -/
theorem inferDecl_splits {dspan : Span} {e : Expr} {schema : Schema} (hst : Layered st.bindings)
    (h : inferDecl env false (.mk dspan p e) st = .ok schema st') : p.Splits schema.type := by
  unfold inferDecl at h
  obtain ⟨t, st1, hexpr, h⟩ := exists_of_bind_ok h
  obtain ⟨r, st2, hpattern, h⟩ := exists_of_bind_ok h
  obtain ⟨_, st3, hunify, h⟩ := exists_of_bind_ok h
  have hst1 : Layered st1.bindings := inferExpr_layered hst hexpr
  have hst2 : Layered st2.bindings := inferPattern_layered hst1 hpattern
  have hpatternType : p.Splits (Ty.applyBindings st3.bindings r.1) :=
    (inferPattern_splits p hpattern).map fun ts => Ty.applyBindings_con _ _ ts
  -- both types are the same behind the step that unifies them
  have ht : p.Splits (Ty.applyBindings st3.bindings t) := hpatternType.alike (Ty.unify_alike hst2 (unify_ok hunify))
  obtain ⟨rfl, -⟩ := EStateM.Result.ok.inj ((generalize_eq env st3 t).symm.trans h)
  exact ht.generalizeOver _

/-- Where all variables have a part of the schema, all of them are bound. -/
theorem bindPattern_eq_bindAll {schema : Schema} {recorded : List (String × Schema)}
    (h : p.distribute (some schema) = recorded.map fun b => (b.1, some b.2)) :
    bindPattern env p schema = env.bindAll recorded := by
  rw [bindPattern, h, List.filterMap_map]
  simp

theorem inferGroup_records {gspan dspan : Span} {e : Expr} {schemas : List Schema}
    (hst : Layered st.bindings) (h : inferGroup env (.single gspan (.mk dspan p e)) st = .ok (schemas, env') st') :
    ∃ schema recorded, schemas = [schema] ∧ p.distribute (some schema) = recorded.map (fun b => (b.1, some b.2)) ∧
      env' = env.bindAll recorded := by
  unfold inferGroup at h
  obtain ⟨schema, st1, hdecl, h⟩ := exists_of_bind_ok h
  cases h
  obtain ⟨recorded, hrecorded⟩ := p.distribute_eq schema.vars schema.type (inferDecl_splits hst hdecl)
  exact ⟨schema, recorded, rfl, hrecorded, bindPattern_eq_bindAll hrecorded⟩

end Check

end VeriScript
