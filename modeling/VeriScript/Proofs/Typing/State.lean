import VeriScript.Proofs.Ty.Unify
import VeriScript.Proofs.Typing.Aliases
import VeriScript.Proofs.Typing.Names
import VeriScript.Typing.Infer

/-!
# The steps of inference

* `Check.Yields` — what a check that succeeds yields.
* `CheckState.Reached` — the state of a check grows: bindings are added before those made earlier, so every
  solution of the later bindings is one of the earlier.
* `TypeEnv.under` — the scope that an environment stands for, with monotypes for its holes.
* `Check.instantiate_yields`, `Check.generalize_yields` — what the steps achieve.
-/

namespace VeriScript

open Ty (NoVars Solves Solved under)

namespace Check

variable {α β : Type}

/-- If the check succeeds, its result and the state behind it satisfy `Q`. -/
def Yields (x : Check α) (st : CheckState) (Q : α → CheckState → Prop) : Prop :=
  match x st with
  | .ok a st' => Q a st'
  | .error _ _ => True

variable {x : Check α} {st st' : CheckState} {a : α} {Q Q' : α → CheckState → Prop}

theorem Yields.of_ok (h : Yields x st Q) (hx : x st = .ok a st') : Q a st' := by
  simpa only [Yields, hx] using h

theorem Yields.imp (h : Yields x st Q) (hQ : ∀ a st', Q a st' → Q' a st') : Yields x st Q' := by
  unfold Yields at h ⊢
  split at h
  · exact hQ _ _ h
  · trivial

@[simp] theorem yields_pure : Yields (pure a : Check α) st Q ↔ Q a st := Iff.rfl

@[simp] theorem yields_bind {f : α → Check β} {Q : β → CheckState → Prop} :
    Yields (x >>= f) st Q ↔ Yields x st fun a st' => Yields (f a) st' Q := by
  unfold Yields
  simp only [bind, EStateM.bind]
  cases x st <;> rfl

theorem Yields.bind {f : α → Check β} {R : β → CheckState → Prop} (h : Yields x st Q)
    (hf : ∀ a st', Q a st' → Yields (f a) st' R) : Yields (x >>= f) st R :=
  yields_bind.2 (h.imp hf)

@[simp] theorem get_eq (st : CheckState) : (get : Check CheckState) st = .ok st st := rfl

theorem set_eq (st st' : CheckState) : (set st' : Check PUnit) st = .ok ⟨⟩ st' := rfl

theorem yields_get {Q : CheckState → CheckState → Prop} : Yields get st Q ↔ Q st st := Iff.rfl

@[simp] theorem yields_set {Q : PUnit → CheckState → Prop} :
    Yields (set st' : Check PUnit) st Q ↔ Q ⟨⟩ st' := Iff.rfl

end Check

/-! ## States -/

/-- Inference has gone on from one state to the other. -/
structure CheckState.Reached (st st' : CheckState) : Prop where
  solved : Solved st'.bindings
  grows : ∃ new, st'.bindings = new ++ st.bindings

namespace CheckState.Reached

variable {st st1 st2 : CheckState} {θ : Nat → Mono}

theorem refl (h : Solved st.bindings) : st.Reached st := ⟨h, [], rfl⟩

theorem of_eq (h : Solved st.bindings) (heq : st1.bindings = st.bindings) : st.Reached st1 :=
  ⟨heq ▸ h, [], heq⟩

theorem trans (h : st.Reached st1) (h' : st1.Reached st2) : st.Reached st2 := by
  obtain ⟨new, hnew⟩ := h.grows
  obtain ⟨new', hnew'⟩ := h'.grows
  exact ⟨h'.solved, new' ++ new, by rw [hnew', hnew, List.append_assoc]⟩

theorem solves (h : st.Reached st1) (hθ : Solves θ st1.bindings) : Solves θ st.bindings := by
  obtain ⟨new, hnew⟩ := h.grows
  exact Ty.Solves.of_append (hnew ▸ hθ)

end CheckState.Reached

/-! ## Environments -/

def Ty.NoHoles (t : Ty) : Prop :=
  ∀ i, i ∉ t.holes

/-- Neither holes nor variables. -/
def Ty.Ground (t : Ty) : Prop :=
  t.NoHoles ∧ t.NoVars

theorem Ty.Ground.denote_eq {t : Ty} (h : t.Ground) {θ θ' : Nat → Mono} {ρ ρ' : String → Mono} :
    t.denote θ ρ = t.denote θ' ρ' :=
  Ty.denote_congr (fun i hi => absurd hi (h.1 i)) fun x hx => absurd hx (h.2 x)

theorem Ty.ground_con {name : String} {args : List Ty} : (Ty.con name args).Ground ↔ ∀ a ∈ args, a.Ground := by
  constructor
  · intro h a ha
    exact ⟨fun i hi => h.1 i (Ty.mem_holes_con.2 ⟨a, ha, hi⟩), fun x hx => h.2 x (Ty.mem_varNames_con.2 ⟨a, ha, hx⟩)⟩
  · intro h
    constructor
    · intro i hi
      obtain ⟨a, ha, hi⟩ := Ty.mem_holes_con.1 hi
      exact (h a ha).1 i hi
    · intro x hx
      obtain ⟨a, ha, hx⟩ := Ty.mem_varNames_con.1 hx
      exact (h a ha).2 x hx

theorem Ty.ground_record {fields : List (String × Ty)} :
    (Ty.record fields).Ground ↔ ∀ f ∈ fields, f.2.Ground := by
  constructor
  · intro h f hf
    exact ⟨fun i hi => h.1 i (Ty.mem_holes_record.2 ⟨f, hf, hi⟩),
      fun x hx => h.2 x (Ty.mem_varNames_record.2 ⟨f, hf, hx⟩)⟩
  · intro h
    constructor
    · intro i hi
      obtain ⟨f, hf, hi⟩ := Ty.mem_holes_record.1 hi
      exact (h f hf).1 i hi
    · intro x hx
      obtain ⟨f, hf, hx⟩ := Ty.mem_varNames_record.1 hx
      exact (h f hf).2 x hx

/-- The schema quantifies all its variables and has no holes. -/
structure Schema.Complete (s : Schema) : Prop where
  closed : ∀ x ∈ s.type.varNames, x ∈ s.vars
  noHoles : s.type.NoHoles

/-- The instance of a schema without holes at monotypes for its variables. -/
def Schema.at (s : Schema) (ρ : String → Mono) : Mono :=
  s.type.denote (fun _ => .unit) ρ

theorem Schema.Complete.denote_eq {s : Schema} (h : s.Complete) (θ : Nat → Mono) (ρ : String → Mono) :
    s.type.denote θ ρ = s.at ρ :=
  Ty.denote_congr (fun i hi => absurd hi (h.noHoles i)) fun _ _ => rfl

namespace TypeEnv

/-- The schemas quantify all their variables, and the aliases stand for types without variables. -/
structure Closed (env : TypeEnv) : Prop where
  types : ∀ e ∈ env.types, ∀ x ∈ e.2.type.varNames, x ∈ e.2.vars
  aliases : ∀ e ∈ env.aliases, e.2.Ground

/-- No schema waits for a hole to be solved. -/
def NoHoles (env : TypeEnv) : Prop :=
  ∀ e ∈ env.types, e.2.type.NoHoles

/-- The types of a session: complete schemas, and aliases for types without variables. -/
structure Complete (env : TypeEnv) : Prop where
  types : ∀ e ∈ env.types, e.2.Complete
  aliases : ∀ e ∈ env.aliases, e.2.Ground

theorem Complete.closed {env : TypeEnv} (h : env.Complete) : env.Closed :=
  ⟨fun e he => (h.types e he).closed, h.aliases⟩

theorem Complete.noHoles {env : TypeEnv} (h : env.Complete) : env.NoHoles :=
  fun e he => (h.types e he).noHoles

/-- The scope that the environment stands for, with monotypes for its holes. -/
def under (θ : Nat → Mono) (env : TypeEnv) : Scope := fun x τ =>
  ∃ s, Table.get? env.types x = some s ∧ ∃ ρ, τ = s.type.denote θ ρ

variable {env : TypeEnv} {θ : Nat → Mono}

theorem get?_bindAll (env : TypeEnv) (entries : List (String × Schema)) (x : String) :
    Table.get? (env.bindAll entries).types x = (Table.get? entries.reverse x).or (Table.get? env.types x) := by
  induction entries generalizing env with
  | nil => rfl
  | cons e entries ih =>
    rw [show env.bindAll (e :: entries) = (env.bind e.1 e.2).bindAll entries from rfl, ih,
      List.reverse_cons, Table.get?_append, Option.or_assoc]
    congr 1
    by_cases hx : x = e.1
    · subst hx
      simp [bind, Table.get?_insert_self, Table.get?]
    · simp [bind, Table.get?_insert_of_ne hx, Table.get?, Ne.symm hx]

theorem NoHoles.under_eq (h : env.NoHoles) (θ θ' : Nat → Mono) : env.under θ = env.under θ' := by
  funext x τ
  refine propext (exists_congr fun s => and_congr_right fun hs => exists_congr fun ρ => ?_)
  rw [Ty.denote_congr (fun i hi => absurd hi (h _ (Table.mem_of_get? hs) i)) fun _ _ => rfl]

/-- The scope of an environment without holes. -/
def scope (env : TypeEnv) : Scope :=
  env.under fun _ => .unit

theorem aliases_bindAll (env : TypeEnv) (entries : List (String × Schema)) :
    (env.bindAll entries).aliases = env.aliases := by
  induction entries generalizing env with
  | nil => rfl
  | cons e entries ih => exact ih _

theorem Closed.bind (h : env.Closed) {name : String} {s : Schema} (hs : ∀ x ∈ s.type.varNames, x ∈ s.vars) :
    (env.bind name s).Closed := by
  refine ⟨fun e he => ?_, h.aliases⟩
  obtain rfl | he := List.mem_cons.1 he
  · exact hs
  · exact h.types e (Table.mem_of_mem_erase he)

theorem Closed.bindAll (h : env.Closed) {entries : List (String × Schema)}
    (hs : ∀ e ∈ entries, ∀ x ∈ e.2.type.varNames, x ∈ e.2.vars) : (env.bindAll entries).Closed := by
  induction entries generalizing env with
  | nil => exact h
  | cons e entries ih =>
    obtain ⟨he, hs⟩ := List.forall_mem_cons.1 hs
    exact ih (h.bind he) hs

theorem Closed.bindAlias (h : env.Closed) {name : String} {t : Ty} (ht : t.Ground) :
    (env.bindAlias name t).Closed := by
  refine ⟨h.types, fun e he => ?_⟩
  obtain rfl | he := List.mem_cons.1 he
  · exact ht
  · exact h.aliases e (Table.mem_of_mem_erase he)

/-- Types under monotypes for their holes, for the names of a pattern. -/
def typingsUnder (θ : Nat → Mono) (binds : List (String × Ty)) : Typings :=
  binds.map fun b => (b.1, b.2.under θ)

theorem under_bindMono {binds : List (String × Ty)} (h : ∀ b ∈ binds, b.2.NoVars) :
    (Check.bindMono env binds).under θ = (env.under θ).bind (typingsUnder θ binds) := by
  funext x τ
  simp only [under, Check.bindMono, get?_bindAll, Scope.bind, typingsUnder, ← List.map_reverse, Table.get?_map]
  cases hget : Table.get? binds.reverse x with
  | none => simp
  | some t =>
    have ht : t.NoVars := h (x, t) (List.mem_reverse.1 (Table.mem_of_get? hget))
    simp only [Schema.mono, ht.denote_eq, Option.map_some, Option.some_or, Option.some.injEq, exists_eq_left',
      eq_iff_iff]
    exact ⟨fun ⟨_, h⟩ => h, fun h => ⟨.var, h⟩⟩

theorem Closed.bindMono (h : env.Closed) {binds : List (String × Ty)} (hbinds : ∀ b ∈ binds, b.2.NoVars) :
    (Check.bindMono env binds).Closed := by
  refine h.bindAll fun e he x hx => ?_
  obtain ⟨b, hb, rfl⟩ := List.mem_map.1 he
  exact absurd hx (hbinds b hb x)

end TypeEnv

/-! ## Steps -/

namespace Check

variable {st : CheckState} {env : TypeEnv} {a b t : Ty} {span : Option Span}

theorem visit_yields {α : Type} {kind : String} {next : Unit → Check α} {Q : α → CheckState → Prop}
    (hst : Solved st.bindings) (h : ∀ st', st.Reached st' → Yields (next ()) st' Q) :
    Yields (visit kind >>= next) st Q :=
  h _ (.of_eq hst rfl)

theorem fresh_yields (hst : Solved st.bindings) :
    Yields fresh st fun t st' => st.Reached st' ∧ t.NoVars :=
  ⟨.of_eq hst rfl, fun _ => Ty.mem_varNames_hole⟩

theorem yields_generalize {env : TypeEnv} {Q : Schema → CheckState → Prop} :
    Yields (generalize env t) st Q ↔ Q (schemaOf env st.bindings t) st := by
  rw [Yields, generalize_eq]

theorem yields_zonk {Q : Ty → CheckState → Prop} :
    Yields (zonk t) st Q ↔ Q (Ty.applyBindings st.bindings t) st := Iff.rfl

theorem zonk_yields (hst : Solved st.bindings) (ht : t.NoVars) :
    Yields (zonk t) st fun t' st' =>
      st' = st ∧ t'.NoVars ∧ ∀ θ, Solves θ st.bindings → t'.under θ = t.under θ :=
  ⟨rfl, ht.applyBindings hst.noVars, fun _ hθ => Ty.denote_applyBindings hst.noVars hθ⟩

theorem nodup_of_firstDuplicate_eq_none {names : List String} (h : firstDuplicate names = none) :
    names.Nodup := by
  refine List.nodup_iff_count.2 fun n => Nat.le_of_not_lt fun hn => ?_
  have hmem : n ∈ names := List.count_pos_iff.1 (Nat.lt_of_succ_lt hn)
  have hsorted := List.head?_eq_none_iff.1 h
  have : n ∈ (names.filter fun n => names.count n > 1).mergeSort Table.nameLE :=
    List.mem_mergeSort.2 (List.mem_filter.2 ⟨hmem, decide_eq_true hn⟩)
  simp [hsorted] at this

theorem firstDuplicate_eq_none_of_nodup {names : List String} (h : names.Nodup) : firstDuplicate names = none := by
  have hnone : names.filter (fun n => names.count n > 1) = [] :=
    List.filter_eq_nil_iff.2 fun n _ hn => Nat.not_lt.2 (List.nodup_iff_count.1 h n) (of_decide_eq_true hn)
  simp [firstDuplicate, hnone]

/-! ### Written types -/

/-- Resolving aliases keeps a type free of holes and variables. -/
theorem resolve_ground {al : Aliases} (hal : ∀ e ∈ al, e.2.Ground) {t u : Ty} (ht : t.Ground)
    (h : t.resolve al = .ok u) : u.Ground := by
  obtain ⟨-, rfl⟩ := Ty.resolve_eq_ok_iff.1 h
  clear h
  induction t using Ty.induct with
  | con name args ih =>
    refine Ty.expand_con_holds hal (Ty.ground_con.2 (List.forall_mem_map.2 fun a ha => ?_))
    exact ih a ha (Ty.ground_con.1 ht a ha)
  | var name => exact ht
  | hole id => exact ht
  | record fields ih =>
    rw [Ty.expand, Ty.expandFields_eq]
    exact Ty.ground_record.2 (List.forall_mem_map.2 fun f hf => ih f hf (Ty.ground_record.1 ht f hf))

theorem resolve_yields (henv : env.Closed) (ht : t.Ground) :
    Yields (resolve env t span) st fun u st' =>
      st' = st ∧ u.Ground ∧ t.resolve env.aliases = .ok u ∧ ∀ θ, Ascribes env.aliases t (u.under θ) := by
  unfold resolve
  cases h : t.resolve env.aliases with
  | error fault => exact trivial
  | ok u =>
    have hu := resolve_ground henv.aliases ht h
    exact ⟨rfl, hu, rfl, fun θ => ⟨u, h, fun _ _ => hu.denote_eq⟩⟩

/-! ### Schemas -/

theorem freshFor_yields (vars : List String) (hst : Solved st.bindings) :
    Yields (vars.mapM fun name => do return (name, ← fresh)) st fun m st' =>
      st.Reached st' ∧ m.map (·.1) = vars ∧ ∀ e ∈ m, e.2.NoVars := by
  induction vars generalizing st with
  | nil => exact ⟨.refl hst, rfl, nofun⟩
  | cons name vars ih =>
    rw [List.mapM_cons, yields_bind, yields_bind]
    refine (fresh_yields hst).imp fun t st1 ⟨hr, ht⟩ => ?_
    rw [yields_pure, yields_bind]
    refine (ih hr.solved).imp fun m st2 ⟨hr', hnames, hm⟩ => ?_
    exact ⟨hr.trans hr', by simp [hnames], List.forall_mem_cons.2 ⟨ht, hm⟩⟩

theorem instantiate_yields (hst : Solved st.bindings) {s : Schema} (hs : ∀ x ∈ s.type.varNames, x ∈ s.vars) :
    Yields (instantiate s) st fun t st' =>
      st.Reached st' ∧ t.NoVars ∧ ∀ θ, ∃ ρ, t.under θ = s.type.denote θ ρ := by
  unfold instantiate
  refine (freshFor_yields s.vars hst).bind fun m st1 ⟨hr, hnames, hm⟩ => ?_
  refine ⟨hr, fun x hx => ?_, fun θ => ⟨_, Ty.denote_substVars _ _⟩⟩
  obtain ⟨hx, hnone⟩ | ⟨e, he, hx⟩ := Ty.mem_varNames_substVars hx
  · -- every variable of the type is replaced
    have hmem : x ∈ m.map (·.1) := hnames ▸ hs x hx
    obtain ⟨e, he, rfl⟩ := List.mem_map.1 hmem
    obtain ⟨v, hv⟩ := Table.exists_get?_of_mem (List.mem_reverse.2 he)
    rw [hv] at hnone
    cases hnone
  · exact hm e (List.mem_reverse.1 he) x hx

/-- Naming holes gives them the monotypes of their names. -/
theorem denote_nameHoles (θ : Nat → Mono) (ρ : String → Mono) (pairs : List (Nat × String)) (t : Ty) :
    ∃ θ' : Nat → Mono, (∀ i, i ∉ pairs.map (·.1) → θ' i = θ i) ∧
      (pairs.foldl (fun t h => Ty.fill h.1 (.var h.2) t) t).denote θ ρ = t.denote θ' ρ := by
  induction pairs generalizing t with
  | nil => exact ⟨θ, fun _ _ => rfl, rfl⟩
  | cons p pairs ih =>
    obtain ⟨θ', hθ', heq⟩ := ih (Ty.fill p.1 (.var p.2) t)
    refine ⟨fun j => if j = p.1 then ρ p.2 else θ' j, fun i hi => ?_, ?_⟩
    · simp only [List.map_cons, List.mem_cons, not_or] at hi
      simp only [hi.1, if_false]
      exact hθ' i hi.2
    · rw [List.foldl_cons, heq, Ty.denote_fill]
      rfl

theorem mem_varNames_nameHoles {pairs : List (Nat × String)} {t : Ty} {x : String}
    (h : x ∈ (pairs.foldl (fun t h => Ty.fill h.1 (.var h.2) t) t).varNames) :
    x ∈ t.varNames ∨ x ∈ pairs.map (·.2) := by
  induction pairs generalizing t with
  | nil => exact .inl h
  | cons p pairs ih =>
    rw [List.map_cons, List.mem_cons]
    obtain hx | hx := ih h
    · obtain hx | hx := Ty.mem_varNames_fill hx
      · exact .inl hx
      · exact .inr (.inl (Ty.mem_varNames_var.1 hx))
    · exact .inr (.inr hx)

theorem generalizeOver_closed (kept : List Nat) (t : Ty) :
    ∀ x ∈ (t.generalizeOver kept).type.varNames, x ∈ (t.generalizeOver kept).vars := by
  intro x hx
  refine List.mem_append.2 ((mem_varNames_nameHoles hx).imp id fun hx => ?_)
  obtain ⟨p, hp, rfl⟩ := List.mem_map.1 hx
  exact (List.of_mem_zip hp).2

/-- Instances of a generalised type differ in the holes that are not kept. -/
theorem denote_generalizeOver (θ : Nat → Mono) (ρ : String → Mono) (kept : List Nat) (t : Ty) :
    ∃ θ' : Nat → Mono, (∀ i ∈ kept, θ' i = θ i) ∧ (t.generalizeOver kept).type.denote θ ρ = t.denote θ' ρ := by
  obtain ⟨θ', hθ', heq⟩ := denote_nameHoles θ ρ _ t
  refine ⟨θ', fun i hi => hθ' i fun hmem => ?_, heq⟩
  obtain ⟨p, hp, rfl⟩ := List.mem_map.1 hmem
  have := (List.mem_filter.1 (List.of_mem_zip hp).1).2
  simp [hi] at this

theorem mem_holes_nameHoles {pairs : List (Nat × String)} {t : Ty} {i : Nat}
    (h : i ∈ (pairs.foldl (fun t h => Ty.fill h.1 (.var h.2) t) t).holes) :
    i ∈ t.holes ∧ i ∉ pairs.map (·.1) := by
  induction pairs generalizing t with
  | nil => exact ⟨h, nofun⟩
  | cons p pairs ih =>
    obtain ⟨hi, hpairs⟩ := ih h
    obtain ⟨hi, hne⟩ | hi := Ty.mem_holes_fill hi
    · exact ⟨hi, fun hmem => (List.mem_cons.1 hmem).elim hne hpairs⟩
    · exact absurd hi Ty.mem_holes_var

theorem mem_holes_generalizeOver {kept : List Nat} {t : Ty} {i : Nat} (h : i ∈ (t.generalizeOver kept).type.holes) :
    i ∈ t.holes ∧ i ∈ kept := by
  obtain ⟨hi, hnamed⟩ := mem_holes_nameHoles h
  rw [List.map_fst_zip (Nat.le_of_eq length_freshNames.symm)] at hnamed
  exact ⟨hi, by simpa [hi] using hnamed⟩

/-- Every instance of the schema is the type under a solution that agrees with the environment. -/
structure Generalizes (env : TypeEnv) (bs : Bindings) (t : Ty) (s : Schema) : Prop where
  closed : ∀ x ∈ s.type.varNames, x ∈ s.vars
  noHoles : env.NoHoles → s.type.NoHoles
  instances : ∀ θ ρ, ∃ θ', Solves θ' bs ∧ s.type.denote θ ρ = t.under θ' ∧
    (Solves θ bs → env.under θ' = env.under θ)

theorem generalize_yields (hst : Solved st.bindings) (ht : t.NoVars) :
    Yields (generalize env t) st fun s st' => st' = st ∧ Generalizes env st.bindings t s := by
  have hnoVars := hst.noVars
  rw [yields_generalize]
  refine ⟨rfl, generalizeOver_closed _ _, fun henv => ?_, fun θ ρ => ?_⟩
  · have hkept : keptHoles env st.bindings = [] := by
      refine List.flatMap_eq_nil_iff.2 fun e he => List.eq_nil_iff_forall_not_mem.2 fun i hi => ?_
      rw [Ty.applyBindings_of_freeOf fun i hi => absurd hi (henv e he i)] at hi
      exact henv e he i hi
    rw [schemaOf, hkept]
    exact fun i hi => List.not_mem_nil (mem_holes_generalizeOver hi).2
  obtain ⟨θ', hkept, heq⟩ := denote_generalizeOver θ ρ (keptHoles env st.bindings) (Ty.applyBindings st.bindings t)
  refine ⟨Ty.solution st.bindings θ', Ty.solves_solution hst θ', ?_, fun hθ => ?_⟩
  · rw [schemaOf, heq, (ht.applyBindings hnoVars).denote_eq]
    exact (Ty.denote_solution hnoVars).symm
  · have hsame : ∀ x s, Table.get? env.types x = some s → ∀ ρ,
        s.type.denote (Ty.solution st.bindings θ') ρ = s.type.denote θ ρ := by
      intro x s hs ρ
      rw [Ty.denote_solution hnoVars, ← Ty.denote_applyBindings hnoVars hθ]
      refine Ty.denote_congr (fun i hi => hkept i ?_) fun _ _ => rfl
      exact List.mem_flatMap.2 ⟨_, Table.mem_of_get? hs, hi⟩
    funext x τ
    refine propext (exists_congr fun s => and_congr_right fun hs => exists_congr fun ρ => ?_)
    rw [hsame x s hs ρ]

/-! ### Types without variables -/

theorem noVars_con {name : String} {args : List Ty} : (Ty.con name args).NoVars ↔ ∀ a ∈ args, a.NoVars := by
  simp only [NoVars, Ty.mem_varNames_con]
  refine ⟨fun h a ha x hx => h x ⟨a, ha, hx⟩, ?_⟩
  rintro h x ⟨a, ha, hx⟩
  exact h a ha x hx

theorem noVars_record {fields : List (String × Ty)} : (Ty.record fields).NoVars ↔ ∀ f ∈ fields, f.2.NoVars := by
  simp only [NoVars, Ty.mem_varNames_record]
  refine ⟨fun h f hf x hx => h x ⟨f, hf, hx⟩, ?_⟩
  rintro h x ⟨f, hf, hx⟩
  exact h f hf x hx

theorem under_con (θ : Nat → Mono) (name : String) (args : List Ty) :
    (Ty.con name args).under θ = .con name (args.map (under θ)) := by
  simp [under, Ty.denote]

theorem under_record (θ : Nat → Mono) (fields : List (String × Ty)) :
    (Ty.record fields).under θ = .record fun name => (Table.get? fields name).map (under θ) := by
  simp only [under, Ty.denote, Ty.denoteFields_eq]
  rfl

theorem noVars_int : Ty.int.NoVars := noVars_con.2 (List.forall_mem_nil _)

theorem noVars_bool : Ty.bool.NoVars := noVars_con.2 (List.forall_mem_nil _)

theorem noVars_list {t : Ty} (h : t.NoVars) : (Ty.list t).NoVars := noVars_con.2 (by simpa using h)

theorem noVars_fn {t u : Ty} (ht : t.NoVars) (hu : u.NoVars) : (Ty.fn t u).NoVars :=
  noVars_con.2 (by simpa using ⟨ht, hu⟩)

theorem noVars_block {c t : Ty} (hc : c.NoVars) (ht : t.NoVars) : (Ty.block c t).NoVars :=
  noVars_con.2 (by simpa using ⟨hc, ht⟩)

variable (θ : Nat → Mono)

theorem under_int : Ty.int.under θ = .int := under_con θ _ _

theorem under_bool : Ty.bool.under θ = .bool := under_con θ _ _

theorem under_list (t : Ty) : (Ty.list t).under θ = .list (t.under θ) := under_con θ _ _

theorem under_tuple (ts : List Ty) : (Ty.tuple ts).under θ = .tuple (ts.map (under θ)) := under_con θ _ _

theorem under_fn (t u : Ty) : (Ty.fn t u).under θ = .fn (t.under θ) (u.under θ) := under_con θ _ _

theorem under_block (c t : Ty) : (Ty.block c t).under θ = .block (c.under θ) (t.under θ) := under_con θ _ _

end Check

end VeriScript
