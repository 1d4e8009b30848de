import VeriScript.Proofs.Script.Names
import VeriScript.Proofs.Typing.State

/-!
# What the steps of inference keep, inference keeps

A discipline says which types may occur in a state of a check.  If the steps of a check follow it when they are given
such types, then so does inference as a whole, whatever is checked and however it ends.

* `TypeEnv.All` — conditions on the types of schemas and on aliases.
* `TypeFault.types` — the types that an error is about.
* `Check.Discipline` — the types that may occur, and computations that keep to them; one rule for each step.
* `Check.Discipline.inferExpr`, `Check.Discipline.inferGroup` — inference.
-/

namespace VeriScript

/-! ## Environments -/

/-- The types of the schemas have one property, and the aliases another. -/
structure TypeEnv.All (F W : Ty → Prop) (env : TypeEnv) : Prop where
  types : ∀ e ∈ env.types, F e.2.type
  aliases : ∀ e ∈ env.aliases, W e.2

theorem Schema.mem_parts {s part : Schema} {k : Nat} (h : some part ∈ Schema.parts (some s) k) :
    ∃ args, s.type = .tuple args ∧ part.type ∈ args := by
  unfold Schema.parts at h
  split at h
  · rename_i vars args heq
    cases heq
    split at h
    · obtain ⟨t, ht, heq⟩ := List.mem_map.1 h
      cases heq
      exact ⟨args, rfl, ht⟩
    · cases List.eq_of_mem_replicate h
  · cases List.eq_of_mem_replicate h

theorem Schema.parts_none {k : Nat} : ∀ part ∈ Schema.parts none k, part = none :=
  fun _ h => List.eq_of_mem_replicate h

mutual

/-- The parts of a schema are parts of its type: they have what the components of a tuple have. -/
theorem Pattern.distribute_parts {P : Ty → Prop} (hP : ∀ args, P (.tuple args) → ∀ a ∈ args, P a) :
    ∀ (p : Pattern) {schema? : Option Schema}, (∀ s ∈ schema?, P s.type) →
    ∀ e ∈ p.distribute schema?, ∀ part ∈ e.2, P part.type
  | .wildcard _ _, _, _ => by exact List.forall_mem_nil _
  | .var _ name _, _, h => by
    intro e he
    obtain rfl := List.mem_singleton.1 he
    exact h
  | .paren _ inner _, _, h => distribute_parts hP inner h
  | .tuple _ ps _, none, _ => distributeList_parts hP ps fun s hs part hpart => by
    rw [Schema.parts_none s hs] at hpart
    cases hpart
  | .tuple _ ps _, some s, h => distributeList_parts hP ps fun s' hs' part hpart => by
    obtain rfl := Option.mem_def.1 hpart
    obtain ⟨args, hargs, hmem⟩ := Schema.mem_parts hs'
    have hs := h s rfl
    rw [hargs] at hs
    exact hP args hs _ hmem

theorem Pattern.distributeList_parts {P : Ty → Prop} (hP : ∀ args, P (.tuple args) → ∀ a ∈ args, P a) :
    ∀ (ps : List Pattern) {schemas : List (Option Schema)}, (∀ s ∈ schemas, ∀ part ∈ s, P part.type) →
    ∀ e ∈ Pattern.distributeList ps schemas, ∀ part ∈ e.2, P part.type
  | [], _, _ => by exact List.forall_mem_nil _
  | p :: ps, [], _ => by exact List.forall_mem_nil _
  | p :: ps, s :: schemas, h => by
    obtain ⟨hs, hschemas⟩ := List.forall_mem_cons.1 h
    exact List.forall_mem_append.2 ⟨distribute_parts hP p hs, distributeList_parts hP ps hschemas⟩

end

namespace TypeEnv.All

variable {F F' W : Ty → Prop} {env : TypeEnv} {name : String} {s : Schema} {t : Ty}

theorem imp (h : env.All F W) (hF : ∀ t, F t → F' t) : env.All F' W :=
  ⟨fun e he => hF _ (h.types e he), h.aliases⟩

theorem bind (h : env.All F W) (hs : F s.type) : (env.bind name s).All F W := by
  refine ⟨fun e he => ?_, h.aliases⟩
  obtain rfl | he := List.mem_cons.1 he
  · exact hs
  · exact h.types e (Table.mem_of_mem_erase he)

theorem bindAll (h : env.All F W) {entries : List (String × Schema)} (hs : ∀ e ∈ entries, F e.2.type) :
    (env.bindAll entries).All F W := by
  induction entries generalizing env with
  | nil => exact h
  | cons e entries ih =>
    obtain ⟨he, hs⟩ := List.forall_mem_cons.1 hs
    exact ih (h.bind he) hs

theorem bindMono (h : env.All F W) {binds : List (String × Ty)} (hbinds : ∀ b ∈ binds, F b.2) :
    (Check.bindMono env binds).All F W := by
  refine h.bindAll fun e he => ?_
  obtain ⟨b, hb, rfl⟩ := List.mem_map.1 he
  exact hbinds b hb

theorem bindAlias (h : env.All F W) (ht : W t) : (env.bindAlias name t).All F W := by
  refine ⟨h.types, fun e he => ?_⟩
  obtain rfl | he := List.mem_cons.1 he
  · exact ht
  · exact h.aliases e (Table.mem_of_mem_erase he)

theorem bindPattern (hF : ∀ args, F (.tuple args) → ∀ a ∈ args, F a) (h : env.All F W) {p : Pattern} (hs : F s.type) :
    (Check.bindPattern env p s).All F W := by
  refine h.bindAll fun e he => ?_
  obtain ⟨d, hd, heq⟩ := List.mem_filterMap.1 he
  obtain ⟨part, hpart, rfl⟩ := Option.map_eq_some_iff.1 heq
  refine p.distribute_parts hF ?_ d hd part hpart
  rintro _ ⟨⟩
  exact hs

theorem bindMembers (h : env.All F W) {members : List (Decl × Schema)} (hmembers : ∀ e ∈ members, F e.2.type) :
    (members.foldl (fun env e => Check.bindMember env e.1 e.2) env).All F W := by
  induction members generalizing env with
  | nil => exact h
  | cons e members ih =>
    obtain ⟨he, hmembers⟩ := List.forall_mem_cons.1 hmembers
    refine ih ?_ hmembers
    show (Check.bindMember env e.1 e.2).All F W
    unfold Check.bindMember
    split
    · exact h.bind he
    · exact h

end TypeEnv.All

/-! ## Disciplines -/

/-- The types that the message of the fault spells out.  A fault that has no message is raised by itself only where a
block type has no parameters. -/
def TypeFault.types : TypeFault → List Ty
  | .mismatch expected actual => [expected, actual]
  | .infiniteType t => [t]
  | .noField record _ => [record]
  | .notRecord _ t => [t]
  | .tupleRange _ tuple => [tuple]
  | .notTuple _ t => [t]
  | .notMonomorphic s => [s.type]
  | .unwritable _ => [.con "Block" []]
  | .unboundVariable _ | .unboundType _ | .aliasParameters _ | .duplicateField _ | .unknownRecord _
  | .unknownTuple _ | .emptyBlock | .lastStatement | .recursivePattern => []

namespace Check

/-- Which types may occur in a state of a check, and what it is for a computation to keep to them. -/
structure Discipline where
  /-- The state is as it should be. -/
  Sound : CheckState → Prop
  /-- The type may occur in the state. -/
  Fits : CheckState → Ty → Prop
  /-- The type may be written in a script. -/
  Written : Ty → Prop
  /-- The second state may follow the first. -/
  Later : CheckState → CheckState → Prop
  /-- From the state, the computation keeps to the types that may occur; a result and the state behind it satisfy
  `Q`. -/
  Follows : {α : Type} → Check α → CheckState → (α → CheckState → Prop) → Prop
  later {st st' t} : Later st st' → Fits st t → Fits st' t
  written {st t} : Written t → Fits st t
  con {st name args} : Ty.Fits (name, args.length) → (∀ a ∈ args, Fits st a) → Fits st (.con name args)
  args {st name args} : Fits st (.con name args) → ∀ a ∈ args, Fits st a
  fields {st fields} : Fits st (.record fields) → ∀ f ∈ fields, Fits st f.2
  pure {α : Type} {a : α} {st Q} : Sound st → Q a st → Follows (Pure.pure a) st Q
  fail {α : Type} {fault : TypeFault} {span : Option Span} {st Q} : Sound st → (∀ t ∈ fault.types, Fits st t) →
    Follows (Check.fail fault span : Check α) st Q
  bind {α β : Type} {x : Check α} {f : α → Check β} {st Q Q'} : Follows x st Q →
    (∀ a st', Sound st' → Later st st' → Q a st' → Follows (f a) st' Q') → Follows (x >>= f) st Q'
  visit {kind st} : Sound st → Follows (Check.visit kind) st fun _ _ => True
  fresh {st} : Sound st → Follows Check.fresh st fun t st' => Fits st' t
  zonk {t st} : Sound st → Fits st t → Follows (Check.zonk t) st fun u st' => Fits st' u
  unify {t u st} {span : Option Span} : Sound st → Fits st t → Fits st u →
    Follows (Check.unify t u span) st fun _ _ => True
  instantiate {s st} : Sound st → Fits st s.type → Follows (Check.instantiate s) st fun t st' => Fits st' t
  generalize {env t st} : Sound st → env.All (Fits st) Written → Fits st t →
    Follows (Check.generalize env t) st fun s st' => Fits st' s.type
  resolve {env t st} {span : Option Span} : Sound st → env.All (Fits st) Written → Written t →
    Follows (Check.resolve env t span) st fun u _ => Written u

namespace Discipline

variable {D : Discipline} {α β : Type} {f : α → Check β} {Q' : β → CheckState → Prop} {st st' : CheckState}
  {env : TypeEnv} {t u : Ty} {span : Option Span}

/-- Records may occur if their fields have different names. -/
def AllowsRecords (D : Discipline) : Prop :=
  ∀ {st fields}, (Table.names fields).Nodup → (∀ f ∈ fields, D.Fits st f.2) → D.Fits st (.record fields)

/-- The environment has types that may occur in the state. -/
abbrev Env (D : Discipline) (st : CheckState) (env : TypeEnv) : Prop :=
  env.All (D.Fits st) D.Written

theorem Env.later (henv : D.Env st env) (h : D.Later st st') : D.Env st' env :=
  henv.imp fun _ => D.later h

theorem base (D : Discipline) {name : String} (h : Ty.Fits (name, 0)) : D.Fits st (.con name []) :=
  D.con h (List.forall_mem_nil _)

theorem list (ht : D.Fits st t) : D.Fits st (.list t) :=
  D.con (by simp [Ty.Fits, Ty.arity?]) (by simpa using ht)

theorem tuple {ts : List Ty} (hts : ∀ t ∈ ts, D.Fits st t) : D.Fits st (.tuple ts) :=
  D.con (by simp [Ty.Fits, Ty.arity?]) hts

theorem fn (ht : D.Fits st t) (hu : D.Fits st u) : D.Fits st (.fn t u) :=
  D.con (by simp [Ty.Fits, Ty.arity?]) (by simpa using ⟨ht, hu⟩)

theorem block (ht : D.Fits st t) (hu : D.Fits st u) : D.Fits st (.block t u) :=
  D.con (by simp [Ty.Fits, Ty.arity?]) (by simpa using ⟨ht, hu⟩)

theorem fail_bind {fault : TypeFault} (hst : D.Sound st) (h : ∀ t ∈ fault.types, D.Fits st t) :
    D.Follows ((Check.fail fault span : Check α) >>= f) st Q' :=
  D.bind (D.fail (Q := fun _ _ => False) hst h) fun _ _ _ _ h => h.elim

/-- Inference stands in the environment, in a state that is as it should be. -/
structure At (D : Discipline) (st : CheckState) (env : TypeEnv) : Prop where
  sound : D.Sound st
  env : D.Env st env

/-- One step further, the environment is as it should be. -/
theorem At.bind (h : D.At st env) {x : Check α} {Q : α → CheckState → Prop} (hx : D.Follows x st Q)
    (hf : ∀ a st', D.At st' env → D.Later st st' → Q a st' → D.Follows (f a) st' Q') :
    D.Follows (x >>= f) st Q' :=
  D.bind hx fun a st' hst' hle hQ => hf a st' ⟨hst', h.env.later hle⟩ hle hQ

theorem At.visited (h : D.At st env) {kind : String} {k : Unit → Check β}
    (hk : ∀ st', D.At st' env → D.Follows (k ()) st' Q') : D.Follows (Check.visit kind >>= k) st Q' :=
  h.bind (D.visit h.sound) fun _ st' h' _ _ => hk st' h'

/-! ### Patterns -/

theorem declared (h : D.At st env) {type? : Option Ty} (ht : ∀ t ∈ type?, D.Written t) :
    D.Follows (type?.mapM (Check.resolve env · span)) st fun declared _ => ∀ u ∈ declared, D.Written u := by
  cases type? with
  | none => exact D.pure h.sound nofun
  | some t =>
    show D.Follows (do return some (← Check.resolve env t span)) st _
    refine D.bind (D.resolve h.sound h.env (ht t rfl)) fun u st1 hst1 _ hu => D.pure hst1 ?_
    rintro _ ⟨⟩
    exact hu

theorem declared_unify {declared : Option Ty} (hst : D.Sound st) (ht : D.Fits st t)
    (hdeclared : ∀ u ∈ declared, D.Written u) {k : Unit → Check β} (hnow : D.Follows (k ()) st Q')
    (hlater : ∀ st', D.Sound st' → D.Later st st' → D.Follows (k ()) st' Q') :
    D.Follows (match declared with
      | some d => do
        let r ← Check.unify d t span
        k r
      | _ => k ()) st Q' := by
  cases declared with
  | none => exact hnow
  | some d => exact D.bind (D.unify hst (D.written (hdeclared d rfl)) ht) fun _ st1 hst1 hle _ => hlater st1 hst1 hle

section
variable (D : Discipline)

mutual

theorem inferPattern {env : TypeEnv} {st : CheckState} : ∀ p : Pattern, p.AllTypes D.Written → D.At st env →
    D.Follows (Check.inferPattern env p) st fun r st' => D.Fits st' r.1 ∧ ∀ b ∈ r.2, D.Fits st' b.2
  | .wildcard span none, hp, h => by
    unfold Check.inferPattern
    exact D.bind (D.fresh h.sound) fun t st1 hst1 _ ht => D.pure hst1 ⟨ht, List.forall_mem_nil _⟩
  | .wildcard span (some t), hp, h => by
    unfold Check.inferPattern
    refine D.bind (D.resolve h.sound h.env (hp t rfl)) fun u st1 hst1 _ hu => D.pure hst1 ?_
    exact ⟨D.written hu, List.forall_mem_nil _⟩
  | .var span name none, hp, h => by
    unfold Check.inferPattern
    exact D.bind (D.fresh h.sound) fun t st1 hst1 _ ht => D.pure hst1 ⟨ht, List.forall_mem_singleton.2 ht⟩
  | .var span name (some t), hp, h => by
    unfold Check.inferPattern
    refine D.bind (D.resolve h.sound h.env (hp t rfl)) fun u st1 hst1 _ hu => D.pure hst1 ?_
    exact ⟨D.written hu, List.forall_mem_singleton.2 (D.written hu)⟩
  | .paren span inner type?, hp, h => by
    unfold Check.inferPattern
    refine h.bind (declared h hp.1) fun declared st1 h1 _ hdeclared => ?_
    refine D.bind (inferPattern inner hp.2 h1) fun r st2 hst2 _ hr => ?_
    refine declared_unify hst2 hr.1 hdeclared (D.pure hst2 hr) fun st3 hst3 hle3 => D.pure hst3 ?_
    exact ⟨D.later hle3 hr.1, fun b hb => D.later hle3 (hr.2 b hb)⟩
  | .tuple span elems type?, hp, h => by
    unfold Check.inferPattern
    refine h.bind (declared h hp.1) fun declared st1 h1 _ hdeclared => ?_
    refine D.bind (inferPatterns elems hp.2 h1) fun r st2 hst2 _ hr => ?_
    have ht := tuple hr.1
    refine declared_unify hst2 ht hdeclared (D.pure hst2 ⟨ht, hr.2⟩) fun st3 hst3 hle3 => D.pure hst3 ?_
    exact ⟨D.later hle3 ht, fun b hb => D.later hle3 (hr.2 b hb)⟩

theorem inferPatterns {env : TypeEnv} {st : CheckState} : ∀ ps : List Pattern, Pattern.AllTypesList D.Written ps →
    D.At st env → D.Follows (Check.inferPatterns env ps) st fun r st' => (∀ t ∈ r.1, D.Fits st' t) ∧
      ∀ b ∈ r.2, D.Fits st' b.2
  | [], _, h => by
    unfold Check.inferPatterns
    exact D.pure h.sound ⟨List.forall_mem_nil _, List.forall_mem_nil _⟩
  | p :: ps, hps, h => by
    unfold Check.inferPatterns
    refine h.bind (inferPattern p hps.1 h) fun r st1 h1 _ hr => ?_
    refine D.bind (inferPatterns ps hps.2 h1) fun r' st2 hst2 hle2 hr' => D.pure hst2 ?_
    refine ⟨List.forall_mem_cons.2 ⟨D.later hle2 hr.1, hr'.1⟩, List.forall_mem_append.2 ⟨fun b hb => ?_, hr'.2⟩⟩
    exact D.later hle2 (hr.2 b hb)

end

end

/-! ### Expressions -/

theorem inferMembers (D : Discipline) {env inner : TypeEnv} {st : CheckState} : ∀ ds : List Decl,
    Decl.AllTypesList D.Written ds → D.At st env → D.Env st inner →
    D.Follows (Check.inferMembers env ds inner) st fun r st' => (∀ t ∈ r.1, D.Fits st' t) ∧ D.Env st' r.2
  | [], _, h, hinner => by
    unfold Check.inferMembers
    exact D.pure h.sound ⟨List.forall_mem_nil _, hinner⟩
  | .mk span p e :: ds, hds, h, hinner => by
    unfold Check.inferMembers
    split
    · dsimp only
      split
      · exact fail_bind h.sound (List.forall_mem_nil _)
      · refine h.bind (inferPattern D p hds.1.1 h) fun r st1 h1 hle1 hr => ?_
        refine D.bind (inferMembers D ds hds.2 h1 ((hinner.later hle1).bind hr.1))
          fun r' st2 hst2 hle2 hr' => D.pure hst2 ?_
        exact ⟨List.forall_mem_cons.2 ⟨D.later hle2 hr.1, hr'.1⟩, hr'.2⟩
    · exact D.fail h.sound (List.forall_mem_nil _)

theorem defaultContext {span : Span} (hst : D.Sound st) (ht : D.Fits st t) :
    D.Follows (Check.defaultContext t span) st fun _ _ => True := by
  unfold Check.defaultContext
  refine D.bind (D.zonk hst ht) fun t' st1 hst1 _ ht' => ?_
  split
  · exact D.fail hst1 (List.forall_mem_singleton.2 ht')
  · exact D.unify hst1 (D.base (by decide)) (D.args ht' _ List.mem_cons_self)
  · exact D.pure hst1 trivial

theorem recordField {name : String} {span : Span} (hst : D.Sound st) (ht : D.Fits st t) :
    D.Follows (Check.recordField t name span) st fun u st' => D.Fits st' u := by
  unfold Check.recordField
  split
  · split
    · rename_i u hu
      exact D.pure hst (D.fields ht _ (Table.mem_of_get? hu))
    · exact D.fail hst (List.forall_mem_singleton.2 ht)
  · exact D.fail hst (List.forall_mem_nil _)
  · exact D.fail hst (List.forall_mem_singleton.2 ht)

theorem tupleElem {i : Nat} {span : Span} (hst : D.Sound st) (ht : D.Fits st t) :
    D.Follows (Check.tupleElem t i span) st fun u st' => D.Fits st' u := by
  unfold Check.tupleElem
  split
  · split
    · rename_i u hu
      exact D.pure hst (D.args ht _ (List.mem_of_getElem? hu))
    · exact D.fail hst (List.forall_mem_singleton.2 ht)
  · exact D.fail hst (List.forall_mem_nil _)
  · exact D.fail hst (List.forall_mem_singleton.2 ht)

theorem generalizeAll (ts : List Ty) (h : D.At st env) (hts : ∀ t ∈ ts, D.Fits st t) :
    D.Follows (ts.mapM (Check.generalize env)) st fun ss st' => ∀ s ∈ ss, D.Fits st' s.type := by
  induction ts generalizing st with
  | nil => exact D.pure h.sound (List.forall_mem_nil _)
  | cons t ts ih =>
    obtain ⟨ht, hts⟩ := List.forall_mem_cons.1 hts
    rw [List.mapM_cons]
    refine h.bind (D.generalize h.sound h.env ht) fun s st1 h1 hle1 hs => ?_
    refine D.bind (ih h1 fun t ht => D.later hle1 (hts t ht)) fun ss st2 hst2 hle2 hss => ?_
    exact D.pure hst2 (List.forall_mem_cons.2 ⟨D.later hle2 hs, hss⟩)

section
set_option linter.unusedSectionVars false
variable (hD : D.AllowsRecords)
include hD

mutual

theorem inferExpr {env : TypeEnv} {st : CheckState} : ∀ e : Expr, e.AllTypes D.Written → D.At st env →
    D.Follows (Check.inferExpr env e) st fun t st' => D.Fits st' t
  | .bool _ _, he, h | .int _ _, he, h | .string _ _, he, h | .code _ _, he, h | .termType _ _, he, h => by
    unfold Check.inferExpr
    exact h.visited fun st1 h1 => D.pure h1.sound (D.base (by decide))
  | .array _ es, he, h => by
    unfold Check.inferExpr
    refine h.visited fun st1 h1 => h1.bind (D.fresh h1.sound) fun t st2 h2 _ ht => ?_
    exact D.bind (inferElems es he h2 ht) fun _ st3 hst3 hle3 _ => D.pure hst3 (list (D.later hle3 ht))
  | .tuple _ es, he, h => by
    unfold Check.inferExpr
    refine h.visited fun st1 h1 => ?_
    exact D.bind (inferExprs es he h1) fun ts st2 hst2 _ hts => D.pure hst2 (tuple hts)
  | .record span fields, he, h => by
    unfold Check.inferExpr
    refine h.visited fun st1 h1 => ?_
    dsimp only
    split
    · exact fail_bind h1.sound (List.forall_mem_nil _)
    · rename_i hdistinct
      refine D.bind (inferFields fields he h1) fun ts st2 hst2 _ hts => D.pure hst2 ?_
      refine hD ?_ hts.2
      rw [hts.1]
      exact nodup_of_firstDuplicate_eq_none (Option.eq_none_iff_forall_ne_some.2 hdistinct)
  | .index _ a i, he, h => by
    unfold Check.inferExpr
    refine h.visited fun st1 h1 => h1.bind (D.fresh h1.sound) fun t st2 h2 _ ht => ?_
    refine h2.bind (inferExpr a he.1 h2) fun u st3 h3 hle3 hu => ?_
    have ht3 := D.later hle3 ht
    refine h3.bind (D.unify h3.sound (list ht3) hu) fun _ st4 h4 hle4 _ => ?_
    refine h4.bind (inferExpr i he.2 h4) fun v st5 h5 hle5 hv => ?_
    refine D.bind (D.unify h5.sound (D.base (by decide)) hv) fun _ st6 hst6 hle6 _ => D.pure hst6 ?_
    exact D.later hle6 (D.later hle5 (D.later hle4 ht3))
  | .field span e name, he, h => by
    unfold Check.inferExpr
    refine h.visited fun st1 h1 => D.bind (inferExpr e he h1) fun t st2 hst2 _ ht => ?_
    exact D.bind (D.zonk hst2 ht) fun u st3 hst3 _ hu => recordField hst3 hu
  | .proj span e i, he, h => by
    unfold Check.inferExpr
    refine h.visited fun st1 h1 => D.bind (inferExpr e he h1) fun t st2 hst2 _ ht => ?_
    exact D.bind (D.zonk hst2 ht) fun u st3 hst3 _ hu => tupleElem hst3 hu
  | .var span name, he, h => by
    unfold Check.inferExpr
    refine h.visited fun st1 h1 => ?_
    split
    · rename_i s hs
      exact D.instantiate h1.sound (h1.env.types _ (Table.mem_of_get? hs))
    · exact D.fail h1.sound (List.forall_mem_nil _)
  | .lam _ p e, he, h => by
    unfold Check.inferExpr
    refine h.visited fun st1 h1 => h1.bind (inferPattern D p he.1 h1) fun r st2 h2 _ hr => ?_
    have hinner : D.At st2 (bindMono env r.2) := ⟨h2.sound, h2.env.bindMono hr.2⟩
    refine D.bind (inferExpr e he.2 hinner) fun t st3 hst3 hle3 ht => D.pure hst3 ?_
    exact fn (D.later hle3 hr.1) ht
  | .app span f a, he, h => by
    unfold Check.inferExpr
    refine h.visited fun st1 h1 => h1.bind (inferExpr f he.1 h1) fun t st2 h2 _ ht => ?_
    refine D.bind (inferExpr a he.2 h2) fun u st3 hst3 hle3 hu => ?_
    refine D.bind (D.fresh hst3) fun v st4 hst4 hle4 hv => ?_
    have ht4 := D.later hle4 (D.later hle3 ht)
    refine D.bind (D.unify hst4 (fn (D.later hle4 hu) hv) ht4) fun _ st5 hst5 hle5 _ => ?_
    exact D.pure hst5 (D.later hle5 hv)
  | .letIn _ g e, he, h => by
    unfold Check.inferExpr
    refine h.visited fun st1 h1 => D.bind (inferGroup g he.1 h1) fun r st2 hst2 _ hr => ?_
    exact inferExpr e he.2 ⟨hst2, hr.2⟩
  | .typed span e t, he, h => by
    unfold Check.inferExpr
    refine h.visited fun st1 h1 => h1.bind (D.resolve h1.sound h1.env he.1) fun u st2 h2 _ hu => ?_
    refine D.bind (inferExpr e he.2 h2) fun v st3 hst3 _ hv => ?_
    exact D.bind (D.unify hst3 (D.written hu) hv) fun _ st4 hst4 _ _ => D.pure hst4 (D.written hu)
  | .ite _ c y n, he, h => by
    unfold Check.inferExpr
    refine h.visited fun st1 h1 => h1.bind (inferExpr c he.1 h1) fun t st2 h2 _ ht => ?_
    refine h2.bind (D.unify h2.sound (D.base (by decide)) ht) fun _ st3 h3 _ _ => ?_
    refine h3.bind (inferExpr y he.2.1 h3) fun u st4 h4 _ hu => ?_
    refine D.bind (inferExpr n he.2.2 h4) fun v st5 hst5 hle5 hv => ?_
    refine D.bind (D.unify hst5 (D.later hle5 hu) hv) fun _ st6 hst6 hle6 _ => D.pure hst6 ?_
    exact D.later hle6 (D.later hle5 hu)
  | .block span body, he, h => by
    unfold Check.inferExpr
    refine h.visited fun st1 h1 => ?_
    dsimp only
    split
    · exact fail_bind h1.sound (List.forall_mem_nil _)
    · refine h1.bind (D.fresh h1.sound) fun c st2 h2 _ hc => ?_
      refine D.bind (inferBody body he h2 hc) fun t st3 hst3 hle3 ht => D.pure hst3 ?_
      exact block (D.later hle3 hc) ht
  | .paren _ e, he, h => by
    unfold Check.inferExpr
    exact h.visited fun st1 h1 => inferExpr e he h1

theorem inferElems {env : TypeEnv} {t : Ty} {st : CheckState} : ∀ es : List Expr, Expr.AllTypesList D.Written es →
    D.At st env → D.Fits st t → D.Follows (Check.inferElems env t es) st fun _ _ => True
  | [], _, h, _ => by
    unfold Check.inferElems
    exact D.pure h.sound trivial
  | e :: es, hes, h, ht => by
    unfold Check.inferElems
    refine h.bind (inferExpr e hes.1 h) fun u st1 h1 hle1 hu => ?_
    have ht1 := D.later hle1 ht
    refine h1.bind (D.unify h1.sound ht1 hu) fun _ st2 h2 hle2 _ => ?_
    exact inferElems es hes.2 h2 (D.later hle2 ht1)

theorem inferExprs {env : TypeEnv} {st : CheckState} : ∀ es : List Expr, Expr.AllTypesList D.Written es →
    D.At st env → D.Follows (Check.inferExprs env es) st fun ts st' => ∀ t ∈ ts, D.Fits st' t
  | [], _, h => by
    unfold Check.inferExprs
    exact D.pure h.sound (List.forall_mem_nil _)
  | e :: es, hes, h => by
    unfold Check.inferExprs
    refine h.bind (inferExpr e hes.1 h) fun t st1 h1 _ ht => ?_
    refine D.bind (inferExprs es hes.2 h1) fun ts st2 hst2 hle2 hts => D.pure hst2 ?_
    exact List.forall_mem_cons.2 ⟨D.later hle2 ht, hts⟩

theorem inferFields {env : TypeEnv} {st : CheckState} : ∀ fields : List (String × Expr),
    Expr.AllTypesFields D.Written fields → D.At st env → D.Follows (Check.inferFields env fields) st fun ts st' =>
      Table.names ts = Table.names fields ∧ ∀ t ∈ ts, D.Fits st' t.2
  | [], _, h => by
    unfold Check.inferFields
    exact D.pure h.sound ⟨rfl, List.forall_mem_nil _⟩
  | (name, e) :: fields, hes, h => by
    unfold Check.inferFields
    refine h.bind (inferExpr e hes.1 h) fun t st1 h1 _ ht => ?_
    refine D.bind (inferFields fields hes.2 h1) fun ts st2 hst2 hle2 hts => D.pure hst2 ?_
    exact ⟨congrArg (name :: ·) hts.1, List.forall_mem_cons.2 ⟨D.later hle2 ht, hts.2⟩⟩

theorem inferBody {env : TypeEnv} {c : Ty} {st : CheckState} : ∀ stmts : List Stmt, Stmt.AllTypesList D.Written stmts →
    D.At st env → D.Fits st c → D.Follows (Check.inferBody env c stmts) st fun t st' => D.Fits st' t
  | [], _, h, _ => by
    unfold Check.inferBody
    exact D.fail h.sound (List.forall_mem_nil _)
  | .bind span p e :: rest, he, h, hc => by
    unfold Check.inferBody
    refine h.bind (inferExpr e he.1.2 h) fun t st1 h1 hle1 ht => ?_
    refine h1.bind (D.fresh h1.sound) fun v st2 h2 hle2 hv => ?_
    have hc2 := D.later hle2 (D.later hle1 hc)
    refine h2.bind (D.unify h2.sound (block hc2 hv) (D.later hle2 ht)) fun _ st3 h3 hle3 _ => ?_
    refine h3.bind (inferPattern D p he.1.1 h3) fun r st4 h4 hle4 hr => ?_
    have hv4 := D.later hle4 (D.later hle3 hv)
    refine h4.bind (D.unify h4.sound hr.1 hv4) fun _ st5 h5 hle5 _ => ?_
    split
    · split
      · exact D.pure h5.sound (D.later hle5 hv4)
      · exact D.fail h5.sound (List.forall_mem_nil _)
    · have hinner := h5.env.bindMono fun b hb => D.later hle5 (hr.2 b hb)
      exact inferBody rest he.2 ⟨h5.sound, hinner⟩ (D.later hle5 (D.later hle4 (D.later hle3 hc2)))
  | .define span g :: rest, he, h, hc => by
    unfold Check.inferBody
    dsimp only
    split
    · exact fail_bind h.sound (List.forall_mem_nil _)
    · refine D.bind (inferGroup g he.1 h) fun r st1 hst1 hle1 hr => ?_
      exact inferBody rest he.2 ⟨hst1, hr.2⟩ (D.later hle1 hc)
  | .typedef span name t :: rest, he, h, hc => by
    unfold Check.inferBody
    dsimp only
    split
    · exact fail_bind h.sound (List.forall_mem_nil _)
    · refine h.bind (D.resolve h.sound h.env he.1) fun u st1 h1 hle1 hu => ?_
      exact inferBody rest he.2 ⟨h1.sound, h1.env.bindAlias hu⟩ (D.later hle1 hc)
  | .code _ _ :: rest, he, h, hc | .importTerms _ _ _ :: rest, he, h, hc => by
    unfold Check.inferBody
    dsimp only
    split
    · exact fail_bind h.sound (List.forall_mem_nil _)
    · exact inferBody rest he.2 h hc

theorem inferDecl {env : TypeEnv} {st : CheckState} : ∀ (d : Decl) (topLevel : Bool), d.AllTypes D.Written →
    D.At st env → D.Follows (Check.inferDecl env topLevel d) st fun s st' => D.Fits st' s.type
  | .mk span p e, topLevel, hd, h => by
    unfold Check.inferDecl
    refine h.bind (inferExpr e hd.2 h) fun t st1 h1 _ ht => ?_
    refine h1.bind (inferPattern D p hd.1 h1) fun r st2 h2 hle2 hr => ?_
    have ht2 := D.later hle2 ht
    refine h2.bind (D.unify h2.sound hr.1 ht2) fun _ st3 h3 hle3 _ => ?_
    have ht3 := D.later hle3 ht2
    dsimp only
    split
    · refine h3.bind (defaultContext h3.sound ht3) fun _ st4 h4 hle4 _ => ?_
      exact D.generalize h4.sound h4.env (D.later hle4 ht3)
    · exact D.generalize h3.sound h3.env ht3

theorem inferBodies {env : TypeEnv} {st : CheckState} : ∀ (ds : List Decl) (ts : List Ty),
    Decl.AllTypesList D.Written ds → D.At st env → (∀ t ∈ ts, D.Fits st t) →
    D.Follows (Check.inferBodies env ds ts) st fun _ _ => True
  | [], ts, _, h, _ | .mk _ _ _ :: _, [], _, h, _ => by
    unfold Check.inferBodies
    exact D.pure h.sound trivial
  | .mk span p e :: ds, t :: ts, hds, h, hts => by
    unfold Check.inferBodies
    obtain ⟨ht, hts⟩ := List.forall_mem_cons.1 hts
    refine h.bind (inferExpr e hds.1.2 h) fun u st1 h1 hle1 hu => ?_
    refine h1.bind (D.unify h1.sound (D.later hle1 ht) hu) fun _ st2 h2 hle2 _ => ?_
    exact inferBodies ds ts hds.2 h2 fun t ht => D.later hle2 (D.later hle1 (hts t ht))

theorem inferGroup {env : TypeEnv} {st : CheckState} : ∀ g : Group, g.AllTypes D.Written → D.At st env →
    D.Follows (Check.inferGroup env g) st fun r st' => (∀ s ∈ r.1, D.Fits st' s.type) ∧ D.Env st' r.2
  | .single span d, hg, h => by
    unfold Check.inferGroup
    refine h.bind (inferDecl d false hg h) fun s st1 h1 _ hs => D.pure h1.sound ?_
    exact ⟨List.forall_mem_singleton.2 hs, h1.env.bindPattern (fun _ => D.args) hs⟩
  | .recursive span ds, hg, h => by
    unfold Check.inferGroup
    refine h.bind (inferMembers D ds hg h h.env) fun r st1 h1 _ hr => ?_
    refine h1.bind (inferBodies ds r.1 hg ⟨h1.sound, hr.2⟩ hr.1) fun _ st2 h2 hle2 _ => ?_
    refine h2.bind (generalizeAll r.1 h2 fun t ht => D.later hle2 (hr.1 t ht)) fun ss st3 h3 _ hss => ?_
    exact D.pure h3.sound ⟨hss, h3.env.bindMembers fun e he => hss e.2 (List.of_mem_zip he).2⟩

end

end

end Discipline

end Check

end VeriScript
