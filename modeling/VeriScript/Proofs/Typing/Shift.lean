import VeriScript.Proofs.Ty.Shift
import VeriScript.Proofs.Typing.Splitting
import VeriScript.Proofs.Typing.Widening
import VeriScript.Proofs.Value.Environment

/-!
# Inference with a hole in reserve

The check of a recursive group puts a hole in the place of each member before it looks at their bodies.  A body that
does not use the member is checked as if the hole was not there: every hole that comes up has the next number, and
nothing else is different.

* `TypeEnv.Shifts` — an environment with the next numbers for its holes, in which one name stands for the hole with the
  first number.
* `Check.Mirrors` — a computation takes the steps of another with the next numbers for all holes.
* `Check.mirroring`, `Check.inferExpr_mirrors` — inference.
-/

namespace VeriScript

open Ty (Layered)

/-! ## Schemas and states -/

/-- The schema with the next number for each of its holes. -/
def Schema.shift (s : Schema) : Schema :=
  ⟨s.vars, s.type.shift⟩

theorem Schema.shift_of_noHoles {s : Schema} (h : s.type.NoHoles) : s.shift = s := by
  rw [Schema.shift, Ty.shift_of_not_mem_holes h]

/-- The state with the next number for each hole, among them the one to be introduced next. -/
def CheckState.shift (st : CheckState) : CheckState :=
  ⟨st.bindings.shift, st.nextHole + 1, st.visited⟩

theorem Ty.shift_nameHoles (pairs : List (Nat × String)) (t : Ty) :
    (pairs.foldl (fun t h => Ty.fill h.1 (.var h.2) t) t).shift =
      (pairs.map fun h => (h.1 + 1, h.2)).foldl (fun t h => Ty.fill h.1 (.var h.2) t) t.shift := by
  induction pairs generalizing t with
  | nil => rfl
  | cons p pairs ih =>
    rw [List.foldl_cons, ih, Ty.shift_fill]
    rfl

/-- Holes that are quantified get the same names under other numbers. -/
theorem Ty.generalizeOver_shift {kept kept' : List Nat} (h : ∀ i, i + 1 ∈ kept' ↔ i ∈ kept) (t : Ty) :
    t.shift.generalizeOver kept' = (t.generalizeOver kept).shift := by
  have hfree : (t.holes.map (· + 1)).filter (fun i => !kept'.contains i) =
      (t.holes.filter fun i => !kept.contains i).map (· + 1) := by
    rw [List.filter_map]
    congr 2
    funext i
    simp [h i]
  simp only [generalizeOver, Schema.shift, holes_shift, varNames_shift, hfree, List.length_map, shift_nameHoles,
    List.zip_map_left]
  rfl

/-! ## The parts of schemas -/

theorem Schema.parts_shift (schema? : Option Schema) (n : Nat) :
    Schema.parts (schema?.map Schema.shift) n = (Schema.parts schema? n).map (Option.map Schema.shift) := by
  have hnone : (List.replicate n none : List (Option Schema)) = (List.replicate n none).map (Option.map shift) := by
    simp
  cases schema? with
  | none => exact hnone
  | some s =>
    obtain ⟨vars, t⟩ := s
    cases t with
    | con name args =>
      by_cases hname : name = "Tuple"
      · subst hname
        by_cases hlength : args.length = n <;> simp [parts, shift, hlength]
      · simp [parts, shift, hname]
    | _ => exact hnone

mutual

theorem Pattern.distribute_shift : ∀ (p : Pattern) (schema? : Option Schema),
    p.distribute (schema?.map Schema.shift) = (p.distribute schema?).map fun e => (e.1, e.2.map Schema.shift)
  | .wildcard _ _, _ | .var _ _ _, _ => rfl
  | .paren _ inner _, schema? => inner.distribute_shift schema?
  | .tuple _ elems _, schema? => by
    rw [distribute, Schema.parts_shift, distributeList_shift elems, distribute]

theorem Pattern.distributeList_shift : ∀ (ps : List Pattern) (schemas : List (Option Schema)),
    distributeList ps (schemas.map (Option.map Schema.shift)) =
      (distributeList ps schemas).map fun e => (e.1, e.2.map Schema.shift)
  | [], _ | _ :: _, [] => rfl
  | p :: ps, s :: ss => by
    rw [List.map_cons, distributeList, p.distribute_shift s, distributeList_shift ps ss, distributeList,
      List.map_append]

end

/-! ## Environments -/

/-- The entries of the second environment are those of the first with the next numbers for their holes, with the
exception of a name `x`: it may stand for the hole with the first number in the place of something without holes.
Where `V` holds, this is not so. -/
structure TypeEnv.Shifts (x : String) (V : Prop) (env env' : TypeEnv) : Prop where
  aliases : env'.aliases = env.aliases
  closed : ∀ e ∈ env.aliases, e.2.NoHoles
  types : ∀ y, (y = x → V) → Table.get? env'.types y = (Table.get? env.types y).map Schema.shift
  forth : ∀ e ∈ env.types, (e.1, e.2.shift) ∈ env'.types ∨ e.2.type.NoHoles
  back : ∀ e ∈ env'.types, (∃ s, (e.1, s) ∈ env.types ∧ e.2 = s.shift) ∨ e.2 = .mono (.hole 0)

namespace TypeEnv.Shifts

variable {x : String} {V W : Prop} {env env' : TypeEnv}

theorem imp (h : env.Shifts x V env') (hV : W → V) : env.Shifts x W env' :=
  { h with types := fun y hy => h.types y fun hyx => hV (hy hyx) }

/-- A name that is bound to the first hole in one environment only. -/
theorem of_noHoles (htypes : env.NoHoles) (haliases : ∀ e ∈ env.aliases, e.2.NoHoles) :
    env.Shifts x False (env.bind x (.mono (.hole 0))) where
  aliases := rfl
  closed := haliases
  types y hy := by
    rw [TypeEnv.bind, Table.get?_insert_of_ne hy]
    cases hget : Table.get? env.types y with
    | none => rfl
    | some s => rw [Option.map_some, Schema.shift_of_noHoles (htypes _ (Table.mem_of_get? hget))]
  forth e he := .inr (htypes e he)
  back e he := by
    rcases List.mem_cons.1 he with rfl | he
    · exact .inr rfl
    · have hmem := Table.mem_of_mem_erase he
      exact .inl ⟨e.2, hmem, (Schema.shift_of_noHoles (htypes e hmem)).symm⟩

theorem bind {name : String} (h : env.Shifts x (x ≠ name ∧ V) env') (s : Schema) :
    (env.bind name s).Shifts x V (env'.bind name s.shift) where
  aliases := h.aliases
  closed := h.closed
  types y hy := by
    by_cases hname : y = name
    · subst hname
      simp only [TypeEnv.bind, Table.get?_insert_self, Option.map_some]
    · simp only [TypeEnv.bind, Table.get?_insert_of_ne hname]
      refine h.types y fun hyx => ⟨?_, hy hyx⟩
      subst hyx
      exact hname
  forth e he := by
    rcases List.mem_cons.1 he with rfl | he
    · exact .inl List.mem_cons_self
    · obtain ⟨hmem, hne⟩ := Table.mem_erase.1 he
      refine (h.forth e hmem).imp_left fun hnew => ?_
      exact List.mem_cons_of_mem _ (Table.mem_erase.2 ⟨hnew, hne⟩)
  back e he := by
    rcases List.mem_cons.1 he with rfl | he
    · exact .inl ⟨s, List.mem_cons_self, rfl⟩
    · obtain ⟨hmem, hne⟩ := Table.mem_erase.1 he
      refine (h.back e hmem).imp_left ?_
      rintro ⟨r, hr, heq⟩
      exact ⟨r, List.mem_cons_of_mem _ (Table.mem_erase.2 ⟨hr, hne⟩), heq⟩

theorem bindAll (entries : List (String × Schema)) (h : env.Shifts x (x ∉ Table.names entries ∧ V) env') :
    (env.bindAll entries).Shifts x V (env'.bindAll (entries.map fun e => (e.1, e.2.shift))) := by
  induction entries generalizing env env' with
  | nil => exact h.imp fun hV => ⟨List.not_mem_nil, hV⟩
  | cons e entries ih =>
    refine ih (bind (h.imp ?_) e.2)
    rintro ⟨hne, hnot, hV⟩
    exact ⟨List.not_mem_cons_of_ne_of_not_mem hne hnot, hV⟩

theorem bindPattern {p : Pattern} {s : Schema} (hsplits : p.Splits s.type) (h : env.Shifts x (x ∉ p.names ∧ V) env') :
    (Check.bindPattern env p s).Shifts x V (Check.bindPattern env' p s.shift) := by
  obtain ⟨recorded, hrecorded⟩ := p.distribute_eq s.vars s.type hsplits
  have hnames : Table.names recorded = p.names := by
    rw [← p.names_distribute (some s), hrecorded]
    simp [Table.names]
  have hshifted : p.distribute (some s.shift) =
      (recorded.map fun e => (e.1, e.2.shift)).map fun e => (e.1, some e.2) := by
    rw [show some s.shift = (some s).map Schema.shift from rfl, p.distribute_shift, hrecorded]
    simp
  rw [Check.bindPattern_eq_bindAll hrecorded, Check.bindPattern_eq_bindAll hshifted]
  exact bindAll recorded (hnames ▸ h)

theorem bindAlias {name : String} {t : Ty} (ht : t.NoHoles) (h : env.Shifts x V env') :
    (env.bindAlias name t).Shifts x V (env'.bindAlias name t) where
  aliases := by simp [TypeEnv.bindAlias, h.aliases]
  closed e he := by
    rcases List.mem_cons.1 he with rfl | he
    · exact ht
    · exact h.closed e (Table.mem_of_mem_erase he)
  types := h.types
  forth := h.forth
  back := h.back

/-- The same holes are shared with the environment, and possibly the first one. -/
theorem mem_kept (h : env.Shifts x V env') (bs : Bindings) (i : Nat) :
    (i + 1 ∈ env'.types.flatMap fun e => (Ty.applyBindings bs.shift e.2.type).holes) ↔
      i ∈ env.types.flatMap fun e => (Ty.applyBindings bs e.2.type).holes := by
  simp only [List.mem_flatMap]
  constructor
  · rintro ⟨e, he, hi⟩
    rcases h.back e he with ⟨s, hs, heq⟩ | heq
    · rw [heq, Schema.shift, ← Ty.shift_applyBindings, Ty.mem_holes_shift] at hi
      exact ⟨_, hs, hi⟩
    · rw [heq, Schema.mono, Ty.applyBindings_of_freeOf (Ty.freeOf_shift_hole_zero bs), Ty.mem_holes_hole] at hi
      omega
  · rintro ⟨e, he, hi⟩
    rcases h.forth e he with hnew | hclosed
    · refine ⟨_, hnew, ?_⟩
      rwa [Schema.shift, ← Ty.shift_applyBindings, Ty.mem_holes_shift]
    · rw [hclosed.applyBindings_eq] at hi
      exact absurd hi (hclosed i)

end TypeEnv.Shifts

/-! ## Computations -/

namespace Check

variable {α β γ δ : Type}

/-- Both results are errors, or values that are related behind states with the same steps; bindings are in layers. -/
inductive ResultsMirror (R : α → β → Prop) :
    EStateM.Result TypeError CheckState α → EStateM.Result TypeError CheckState β → Prop
  | ok {a : α} {b : β} (st : CheckState) (related : R a b) (layered : Layered st.bindings) :
    ResultsMirror R (.ok a st) (.ok b st.shift)
  | error {e e' : TypeError} {st st' : CheckState} : ResultsMirror R (.error e st) (.error e' st')

/-- The second computation takes the steps of the first with the next numbers for all holes. -/
def Mirrors (R : α → β → Prop) (x : Check α) (y : Check β) : Prop :=
  ∀ st, Layered st.bindings → ResultsMirror R (x st) (y st.shift)

/-- The same for results with holes: they have the next numbers, too. -/
abbrev MirrorsBy (s : α → β) (x : Check α) (y : Check β) : Prop :=
  Mirrors (fun a b => b = s a) x y

namespace Mirrors

variable {R : α → β → Prop} {S : γ → δ → Prop} {x : Check α} {y : Check β} {f : α → Check γ} {g : β → Check δ}

theorem pure {a : α} {b : β} (h : R a b) : Mirrors R (Pure.pure a) (Pure.pure b) :=
  fun st hst => .ok st h hst

theorem fail (fault fault' : TypeFault) (span span' : Option Span) :
    Mirrors R (Check.fail fault span) (Check.fail fault' span') :=
  fun _ _ => .error

theorem bind (hx : Mirrors R x y) (hf : ∀ a b, R a b → Mirrors S (f a) (g b)) : Mirrors S (x >>= f) (y >>= g) := by
  intro st hst
  have hfirst := hx st hst
  simp only [Bind.bind, EStateM.bind]
  generalize x st = r, y st.shift = r' at hfirst ⊢
  cases hfirst with
  | ok st1 related layered => exact hf _ _ related st1 layered
  | error => exact .error

theorem andThen {s : α → β} (hx : MirrorsBy s x y) (hf : ∀ a, Mirrors S (f a) (g (s a))) :
    Mirrors S (x >>= f) (y >>= g) :=
  hx.bind fun a _ hb => hb ▸ hf a

/-- What holds of every result of the first computation may be used. -/
theorem and {Q : α → Prop} (hx : Mirrors R x y)
    (hQ : ∀ {st st' : CheckState} {a : α}, Layered st.bindings → x st = .ok a st' → Q a) :
    Mirrors (fun a b => R a b ∧ Q a) x y := by
  intro st hst
  have hfirst := hx st hst
  have hresult : ∀ a st', x st = .ok a st' → Q a := fun a st' => hQ hst
  generalize x st = r, y st.shift = r' at hfirst hresult ⊢
  cases hfirst with
  | ok st1 related layered => exact .ok st1 ⟨related, hresult _ _ rfl⟩ layered
  | error => exact .error

end Mirrors

/-! ## Steps -/

section
variable {x : String} {V : Prop} {env env' : TypeEnv} {span : Option Span}

theorem visit_mirrors (kind : String) : Mirrors (fun _ _ => True) (visit kind) (visit kind) :=
  fun st hst => .ok { st with visited := kind :: st.visited } trivial hst

theorem fresh_mirrors : MirrorsBy Ty.shift fresh fresh :=
  fun st hst => .ok { st with nextHole := st.nextHole + 1 } rfl hst

theorem zonk_mirrors (t : Ty) : MirrorsBy Ty.shift (zonk t) (zonk t.shift) :=
  fun st hst => .ok st (Ty.shift_applyBindings st.bindings t).symm hst

theorem unify_mirrors (a b : Ty) (span : Option Span) :
    Mirrors (fun _ _ => True) (unify a b span) (unify a.shift b.shift span) := by
  intro st hst
  have hshift := Ty.unify_shift st.bindings a b
  have hlayered := hst.unify a b
  cases hunify : Ty.unify st.bindings a b with
  | mk bs fault? =>
    rw [hunify] at hshift hlayered
    simp only [unify, Bind.bind, EStateM.bind, get_eq, set_eq, CheckState.shift, hunify, hshift]
    cases fault? with
    | none => exact .ok { st with bindings := bs } trivial hlayered
    | some fault =>
      cases fault with
      | mismatch c d => exact .error
      | infinite t => exact .error

theorem instantiate_mirrors (s : Schema) : MirrorsBy Ty.shift (instantiate s) (instantiate s.shift) := by
  have hfresh : ∀ name : String, MirrorsBy (fun e : String × Ty => (e.1, e.2.shift))
      (do return (name, ← fresh)) (do return (name, ← fresh)) :=
    fun name => fresh_mirrors.andThen fun t => .pure rfl
  have hholes : MirrorsBy (List.map fun e : String × Ty => (e.1, e.2.shift))
      (s.vars.mapM fun name => do return (name, ← fresh)) (s.vars.mapM fun name => do return (name, ← fresh)) := by
    induction s.vars with
    | nil => exact .pure rfl
    | cons name vars ih =>
      rw [List.mapM_cons]
      exact (hfresh name).andThen fun _ => ih.andThen fun _ => .pure rfl
  refine hholes.andThen fun holes => .pure ?_
  rw [Ty.shift_substVars, List.map_reverse]
  rfl

theorem generalize_mirrors (h : env.Shifts x V env') (t : Ty) :
    MirrorsBy Schema.shift (generalize env t) (generalize env' t.shift) := by
  intro st hst
  rw [generalize_eq, generalize_eq]
  refine .ok st ?_ hst
  show schemaOf env' st.shift.bindings t.shift = (schemaOf env st.bindings t).shift
  unfold schemaOf keptHoles
  rw [← Ty.generalizeOver_shift (h.mem_kept st.bindings), Ty.shift_applyBindings]
  rfl

/-- A type without holes is resolved to the same type without holes. -/
theorem resolve_closed (h : env.Shifts x V env') {t : Ty} (ht : t.NoHoles) :
    Mirrors (fun u u' => u' = u ∧ u.NoHoles) (resolve env t span) (resolve env' t span) := by
  have haliases : ∀ e ∈ env.aliases, e.2.Solid fun _ => True := by
    rw [solid_eq_noHoles]
    exact h.closed
  unfold resolve
  rw [h.aliases]
  cases hresolve : t.resolve env.aliases with
  | error fault => exact .fail _ _ _ _
  | ok u =>
    rw [← solid_eq_noHoles] at ht ⊢
    exact .pure ⟨rfl, resolve_every haliases ht hresolve⟩

theorem recordField_mirrors (t : Ty) (name : String) (span : Span) :
    MirrorsBy Ty.shift (recordField t name span) (recordField t.shift name span) := by
  cases t with
  | record fields =>
    simp only [recordField, Ty.shift_record, Table.get?_map]
    cases Table.get? fields name with
    | none => exact .fail _ _ _ _
    | some t => exact .pure rfl
  | _ => exact .fail _ _ _ _

theorem tupleElem_mirrors (t : Ty) (i : Nat) (span : Span) :
    MirrorsBy Ty.shift (tupleElem t i span) (tupleElem t.shift i span) := by
  cases t with
  | con name args =>
    by_cases hname : name = "Tuple"
    · subst hname
      simp only [tupleElem, Ty.shift_con, List.getElem?_map]
      cases args[i]? with
      | none => exact .fail _ _ _ _
      | some t => exact .pure rfl
    · have hfail : ∀ args, tupleElem (.con name args) i span = fail (.notTuple i (.con name args)) span := by
        intro args
        simp [tupleElem, hname]
      rw [Ty.shift_con, hfail, hfail]
      exact .fail _ _ _ _
  | _ => exact .fail _ _ _ _

end

/-! ## Inference -/

/-- Holes that correspond have numbers that follow each other. -/
def mirroring (x : String) : Correspondence where
  Matches R := Mirrors R
  onTy := Ty.shift
  Written := Ty.NoHoles
  name := x
  Env := TypeEnv.Shifts x
  con _ _ := (Ty.shift_con _ _).symm
  record _ := (Ty.shift_record _).symm
  written ht := (Ty.shift_of_not_mem_holes ht).symm
  imp := .imp
  bindName h := h.bind _
  bindAlias := .bindAlias
  pure := .pure
  fail := .fail _ _ _ _
  bind := .bind
  visit := visit_mirrors
  fresh := fresh_mirrors
  zonk := zonk_mirrors
  unify := unify_mirrors
  generalize t h := generalize_mirrors h t
  resolve h ht := resolve_closed h ht
  recordField := recordField_mirrors
  tupleElem := tupleElem_mirrors
  var {env env' span name} h := by
    unfold inferExpr
    refine (visit_mirrors _).bind fun _ _ _ => ?_
    rw [h.types name id]
    cases Table.get? env.types name with
    | none => exact .fail _ _ _ _
    | some s => exact instantiate_mirrors s
  single {V env env' span d} hd h := by
    obtain ⟨_, p, e⟩ := d
    unfold inferGroup
    refine (hd.and (Q := fun s => p.Splits s.type) fun hst hrun => inferDecl_splits hst hrun).bind ?_
    rintro s _ ⟨rfl, hsplits⟩
    exact .pure ⟨rfl, .bindPattern hsplits h⟩

theorem inferExpr_mirrors (e : Expr) {x : String} {env env' : TypeEnv} (hts : e.AllTypes Ty.NoHoles)
    (h : env.Shifts x (e.Uses x) env') : MirrorsBy Ty.shift (inferExpr env e) (inferExpr env' e) :=
  (mirroring x).inferExpr e hts h

end Check

end VeriScript
