import VeriScript.Proofs.Term.Meaning
import VeriScript.Proofs.Ty.Acyclic
import VeriScript.Proofs.Typing.Discipline

/-!
# The states of inference

Whatever is checked, and however the check ends, the bindings never form a cycle and mention only holes that
have been introduced.

* `CheckState.Sound` — the invariant of the state.
* `Check.Throughout` — a computation passes through such states only, and hands each of its steps types and
  environments with holes that have been introduced.
* `Check.Keeps` — the same with what is known of the result; one rule for each step of inference.
* `Check.keeping` — the invariant as a discipline of inference.
* `Check.inferExpr_keeps`, `Check.inferGroup_keeps` — inference keeps the invariant.
-/

namespace VeriScript

open Ty (Every Layered)

/-! ## Holes that have been introduced -/

/-- The holes of the type come before the `n`-th, and the names of the fields of its records satisfy `R`. -/
abbrev Ty.Below (R : List String → Prop) (n : Nat) (t : Ty) : Prop :=
  t.Every (· < n) R

/-- The holes of the type come before the `n`-th: they have been introduced when `n` is the next hole. -/
def Ty.Introduced (n : Nat) (t : Ty) : Prop :=
  ∀ i ∈ t.holes, i < n

/-- No holes, and the names of the fields of records satisfy `R`. -/
abbrev Ty.Solid (R : List String → Prop) (t : Ty) : Prop :=
  t.Every (fun _ => False) R

variable {R : List String → Prop} {n m : Nat} {t u : Ty}

theorem Ty.Below.mono (h : t.Below R n) (hle : n ≤ m) : t.Below R m :=
  h.imp fun i hi => Nat.lt_of_lt_of_le (h.mem_holes i hi) hle

theorem Ty.Solid.below (h : t.Solid R) (n : Nat) : t.Below R n :=
  h.imp fun i hi => (h.mem_holes i hi).elim

/-- Records whose fields have different names are allowed. -/
def AllowsDistinct (R : List String → Prop) : Prop :=
  ∀ names, names.Nodup → R names

/-- The bindings have no cycles, and all their holes have been introduced. -/
structure CheckState.Sound (R : List String → Prop) (st : CheckState) : Prop where
  layered : Layered st.bindings
  bound : ∀ b ∈ st.bindings, b.1 < st.nextHole ∧ b.2.Below R st.nextHole

namespace TypeEnv

/-- The holes of the schemas come before the `n`-th, and the aliases have none. -/
structure Below (R : List String → Prop) (n : Nat) (env : TypeEnv) : Prop where
  types : ∀ e ∈ env.types, e.2.type.Below R n
  aliases : ∀ e ∈ env.aliases, e.2.Solid R

variable {env : TypeEnv}

theorem Below.mono (h : env.Below R n) (hle : n ≤ m) : env.Below R m :=
  ⟨fun e he => (h.types e he).mono hle, h.aliases⟩

theorem below_iff : env.Below R n ↔ env.All (Ty.Below R n) (Ty.Solid R) :=
  ⟨fun h => ⟨h.types, h.aliases⟩, fun h => ⟨h.types, h.aliases⟩⟩

end TypeEnv

/-! ## Computations -/

namespace Check

variable {α β : Type}

/-- The state that a computation leaves, also by an error. -/
def stateAfter (x : Check α) (st : CheckState) : CheckState :=
  match x st with
  | .ok _ st' => st'
  | .error _ st' => st'

/-- Every state that the computation passes through satisfies `I`, those within unification and generalisation and
the last one included; each step is given types and environments with holes that have been introduced. -/
inductive Throughout (I : CheckState → Prop) : {α : Type} → Check α → CheckState → Prop
  | pure {α : Type} {a : α} {st} (now : I st) : Throughout I (pure a) st
  | fail {α : Type} {fault span st} (now : I st) : Throughout I (fail fault span : Check α) st
  | visit {kind st} (now : I st) (after : I (stateAfter (visit kind) st)) : Throughout I (visit kind) st
  | fresh {st} (now : I st) (after : I (stateAfter fresh st)) : Throughout I fresh st
  | zonk {t st} (now : I st) (type : t.Introduced st.nextHole) : Throughout I (zonk t) st
  | instantiate {s st} (schema : s.type.Introduced st.nextHole)
      (holes : Throughout I (s.vars.mapM fun name => do return (name, ← fresh)) st) : Throughout I (instantiate s) st
  | unify {a b span st} (left : a.Introduced st.nextHole) (right : b.Introduced st.nextHole)
      (steps : ∀ bs, st.bindings <:+ bs → bs <:+ (stateAfter (unify a b span) st).bindings →
        I { st with bindings := bs }) : Throughout I (unify a b span) st
  | generalize {env : TypeEnv} {t st}
      (scope : ∀ e ∈ env.types, e.2.type.Introduced st.nextHole) (type : t.Introduced st.nextHole)
      (steps : ∀ bs, st.bindings <:+ bs → bs <:+ st.bindings.install (namedHoles env st.bindings t) →
        I { st with bindings := bs }) : Throughout I (generalize env t) st
  | bind {α β : Type} {x : Check α} {f : α → Check β} {st} (first : Throughout I x st)
      (next : ∀ a st', x st = .ok a st' → Throughout I (f a) st') : Throughout I (x >>= f) st

theorem stateAfter_unify (a b : Ty) (span : Option Span) (st : CheckState) :
    stateAfter (unify a b span) st = { st with bindings := (Ty.unify st.bindings a b).1 } := by
  simp only [stateAfter, unify, bind, EStateM.bind, get_eq, set_eq]
  cases hunify : Ty.unify st.bindings a b with
  | mk bs fault? =>
    cases fault? with
    | none => rfl
    | some fault => cases fault <;> rfl

variable {I J : CheckState → Prop} {x : Check α} {f : α → Check β} {st st' : CheckState} {a : α}

theorem Throughout.imp (h : Throughout I x st) (hIJ : ∀ st, I st → J st) : Throughout J x st := by
  induction h with
  | pure now => exact .pure (hIJ _ now)
  | fail now => exact .fail (hIJ _ now)
  | visit now after => exact .visit (hIJ _ now) (hIJ _ after)
  | fresh now after => exact .fresh (hIJ _ now) (hIJ _ after)
  | zonk now type => exact .zonk (hIJ _ now) type
  | instantiate schema _ ih => exact .instantiate schema ih
  | unify left right steps => exact .unify left right fun bs h h' => hIJ _ (steps bs h h')
  | generalize scope type steps => exact .generalize scope type fun bs h h' => hIJ _ (steps bs h h')
  | bind _ _ ihfirst ihnext => exact .bind ihfirst ihnext

theorem Throughout.last (h : Throughout I x st) : I (stateAfter x st) := by
  induction h with
  | pure now => exact now
  | fail now => exact now
  | visit now after => exact after
  | fresh now after => exact after
  | zonk now type => exact now
  | @instantiate s st schema _ ih =>
    unfold stateAfter at ih ⊢
    simp only [Check.instantiate, Bind.bind, EStateM.bind] at ih ⊢
    split at ih <;> simp_all [Pure.pure, EStateM.pure]
  | unify left right steps =>
    rw [stateAfter_unify] at steps ⊢
    exact steps _ (Ty.suffix_unify _ _ _) (List.suffix_refl _)
  | @generalize env t st scope type steps =>
    rw [stateAfter, generalize_eq]
    exact steps _ (List.suffix_refl _) (Bindings.suffix_install _ _)
  | @bind α β x f st first next ihfirst ihnext =>
    unfold stateAfter
    simp only [Bind.bind, EStateM.bind]
    cases hx : x st with
    | ok a st' => exact ihnext a st' hx
    | error e st' => simpa [stateAfter, hx] using ihfirst

/-- The computation keeps the invariant of the state, introduces holes in order, and if it succeeds, its result
and the state behind it satisfy `Q`. -/
structure Keeps (R : List String → Prop) (x : Check α) (st : CheckState) (Q : α → CheckState → Prop) : Prop where
  throughout : Throughout (CheckState.Sound R) x st
  result : ∀ a st', x st = .ok a st' → st.nextHole ≤ st'.nextHole ∧ Q a st'

variable {Q : α → CheckState → Prop} {Q' : β → CheckState → Prop} {env : TypeEnv} {span : Option Span}

theorem Keeps.sound_of_ok (h : Keeps R x st Q) (hx : x st = .ok a st') : st'.Sound R := by
  simpa [stateAfter, hx] using h.throughout.last

theorem Keeps.bind (h : Keeps R x st Q)
    (hf : ∀ a st', st'.Sound R → st.nextHole ≤ st'.nextHole → Q a st' → Keeps R (f a) st' Q') :
    Keeps R (x >>= f) st Q' := by
  have hnext : ∀ a st', x st = .ok a st' → st.nextHole ≤ st'.nextHole ∧ Keeps R (f a) st' Q' := by
    intro a st' hx
    obtain ⟨hle, hQ⟩ := h.result a st' hx
    exact ⟨hle, hf a st' (h.sound_of_ok hx) hle hQ⟩
  refine ⟨.bind h.throughout fun a st' hx => (hnext a st' hx).2.throughout, fun b st2 hb => ?_⟩
  simp only [Bind.bind, EStateM.bind] at hb
  cases hx : x st with
  | error e st1 =>
    rw [hx] at hb
    cases hb
  | ok a st1 =>
    rw [hx] at hb
    obtain ⟨hle, hkeeps⟩ := hnext a st1 hx
    obtain ⟨hle', hQ'⟩ := hkeeps.result b st2 hb
    exact ⟨Nat.le_trans hle hle', hQ'⟩

/-! ## Steps -/

section
variable (hst : st.Sound R)
include hst

theorem keeps_pure (h : Q a st) : Keeps R (pure a) st Q := by
  refine ⟨.pure hst, fun b st' hb => ?_⟩
  cases hb
  exact ⟨Nat.le_refl _, h⟩

theorem keeps_fail (fault : TypeFault) (span : Option Span) : Keeps R (fail fault span : Check α) st Q := by
  refine ⟨.fail hst, fun b st' hb => ?_⟩
  cases hb

theorem visit_keeps (kind : String) : Keeps R (visit kind) st fun _ _ => True := by
  refine ⟨.visit hst ⟨hst.layered, hst.bound⟩, fun _ st' h => ?_⟩
  cases h
  exact ⟨Nat.le_refl _, trivial⟩

theorem fresh_keeps : Keeps R fresh st fun t st' => t.Below R st'.nextHole := by
  have hafter : (stateAfter fresh st).Sound R := by
    refine ⟨hst.layered, fun b hb => ?_⟩
    obtain ⟨hlt, hbelow⟩ := hst.bound b hb
    exact ⟨Nat.lt_succ_of_lt hlt, hbelow.mono (Nat.le_succ _)⟩
  refine ⟨.fresh hst hafter, fun t st' h => ?_⟩
  cases h
  exact ⟨Nat.le_succ _, .hole (Nat.lt_succ_self _)⟩

theorem zonk_keeps (ht : t.Below R st.nextHole) :
    Keeps R (zonk t) st fun t' st' => t'.Below R st'.nextHole := by
  refine ⟨.zonk hst ht.mem_holes, fun t' st' h => ?_⟩
  cases h
  exact ⟨Nat.le_refl _, ht.applyBindings fun b hb => (hst.bound b hb).2⟩

theorem unify_keeps (ht : t.Below R st.nextHole) (hu : u.Below R st.nextHole) :
    Keeps R (unify t u span) st fun _ _ => True := by
  obtain ⟨hlayered, hbound⟩ := Ty.unify_keeps hst.layered hst.bound ht hu
  refine ⟨.unify ht.mem_holes hu.mem_holes fun bs _ hbs => ?_, fun a st' h => ⟨?_, trivial⟩⟩
  · rw [stateAfter_unify] at hbs
    exact ⟨hlayered.of_suffix hbs, fun b hb => hbound b (hbs.mem hb)⟩
  · have hst' := stateAfter_unify t u span st
    rw [stateAfter, h] at hst'
    subst hst'
    exact Nat.le_refl _

end

theorem freshFor_keeps (vars : List String) (hst : st.Sound R) :
    Keeps R (vars.mapM fun name => do return (name, ← fresh)) st fun m st' => ∀ e ∈ m, e.2.Below R st'.nextHole := by
  induction vars generalizing st with
  | nil => exact keeps_pure hst (List.forall_mem_nil _)
  | cons name vars ih =>
    rw [List.mapM_cons]
    refine Keeps.bind (Q := fun e st' => e.2.Below R st'.nextHole) ?_ fun e st1 hst1 _ he => ?_
    · exact (fresh_keeps hst).bind fun t st1 hst1 _ ht => keeps_pure hst1 ht
    · refine (ih hst1).bind fun m st2 hst2 hle hm => keeps_pure hst2 ?_
      exact List.forall_mem_cons.2 ⟨he.mono hle, hm⟩

theorem instantiate_keeps (hst : st.Sound R) {s : Schema} (hs : s.type.Below R st.nextHole) :
    Keeps R (instantiate s) st fun t st' => t.Below R st'.nextHole := by
  have hfresh := freshFor_keeps s.vars hst
  have hkeeps : Keeps R (instantiate s) st fun t st' => t.Below R st'.nextHole :=
    hfresh.bind fun m st1 hst1 hle hm => keeps_pure hst1 <|
      (hs.mono hle).substVars fun e he => hm e (List.mem_reverse.1 he)
  exact ⟨.instantiate hs.mem_holes hfresh.throughout, hkeeps.result⟩

theorem nameHoles_below {pairs : List (Nat × String)} (h : t.Below R n) :
    (pairs.foldl (fun t h => Ty.fill h.1 (.var h.2) t) t).Below R n := by
  induction pairs generalizing t with
  | nil => exact h
  | cons p pairs ih => exact ih (h.fill .var)

/-- Different holes that are not bound yet can be bound to names. -/
theorem sound_install {names : List (Nat × String)} (hst : st.Sound R) (hdistinct : (names.map Prod.fst).Nodup)
    (hnames : ∀ h ∈ names, h.1 < st.nextHole ∧ ∀ b ∈ st.bindings, b.1 ≠ h.1) :
    CheckState.Sound R { st with bindings := st.bindings.install names } := by
  induction names generalizing st with
  | nil => exact hst
  | cons h names ih =>
    obtain ⟨⟨hlt, hfree⟩, hnames⟩ := List.forall_mem_cons.1 hnames
    rw [List.map_cons, List.nodup_cons] at hdistinct
    have hcons : CheckState.Sound R { st with bindings := (h.1, .var h.2) :: st.bindings } := by
      refine ⟨⟨fun _ hi => absurd hi Ty.mem_holes_var, fun i hi b hb => ?_, Ty.mem_holes_var, hst.layered⟩, ?_⟩
      · exact Ty.mem_holes_hole.1 hi ▸ hfree b hb
      · exact List.forall_mem_cons.2 ⟨⟨hlt, .var⟩, hst.bound⟩
    refine ih hcons hdistinct.2 fun h' hh' => ⟨(hnames h' hh').1, List.forall_mem_cons.2 ⟨?_, (hnames h' hh').2⟩⟩
    exact fun heq => hdistinct.1 (List.mem_map.2 ⟨h', hh', heq.symm⟩)

theorem generalize_keeps (hst : st.Sound R) (henv : env.Below R st.nextHole) (ht : t.Below R st.nextHole) :
    Keeps R (generalize env t) st fun s st' => s.type.Below R st'.nextHole := by
  have hbelow := ht.applyBindings fun b hb => (hst.bound b hb).2
  have hfirst : (namedHoles env st.bindings t).map Prod.fst =
      (Ty.applyBindings st.bindings t).holes.filter fun id => !(keptHoles env st.bindings).contains id :=
    List.map_fst_zip (Nat.le_of_eq length_freshNames.symm)
  have hinstalled : CheckState.Sound R { st with bindings := st.bindings.install (namedHoles env st.bindings t) } := by
    refine sound_install hst (hfirst ▸ (Term.nodup_eraseDups _).filter _) fun h hh => ?_
    have hmem : h.1 ∈ (Ty.applyBindings st.bindings t).holes :=
      (List.mem_filter.1 (hfirst ▸ List.mem_map_of_mem hh)).1
    exact ⟨hbelow.mem_holes _ hmem, Ty.freeOf_applyBindings hst.layered t _ hmem⟩
  refine ⟨.generalize (fun e he => (henv.types e he).mem_holes) ht.mem_holes fun bs _ hbs => ?_, fun s st' h => ?_⟩
  · exact ⟨hinstalled.layered.of_suffix hbs, fun b hb => hinstalled.bound b (hbs.mem hb)⟩
  rw [generalize_eq] at h
  cases h
  exact ⟨Nat.le_refl _, nameHoles_below hbelow⟩

/-! ### Written types -/

theorem resolve_every {al : Aliases} {H : Nat → Prop} (hal : ∀ e ∈ al, e.2.Every H R) (ht : t.Every H R)
    (h : t.resolve al = .ok u) : u.Every H R := by
  obtain ⟨-, rfl⟩ := Ty.resolve_eq_ok_iff.1 h
  clear h
  induction ht with
  | con _ ih => exact Ty.expand_con_holds hal (.con (List.forall_mem_map.2 ih))
  | var => exact .var
  | hole holds => exact .hole holds
  | record names _ ih =>
    rw [Ty.expand, Ty.expandFields_eq]
    refine .record ?_ (List.forall_mem_map.2 ih)
    rwa [Table.names, List.map_map]

theorem resolve_keeps (hst : st.Sound R) (henv : env.Below R n) (ht : t.Solid R) :
    Keeps R (resolve env t span) st fun u _ => u.Solid R := by
  unfold resolve
  cases h : t.resolve env.aliases with
  | error fault => exact keeps_fail hst _ _
  | ok u => exact keeps_pure hst (resolve_every henv.aliases ht h)

/-! ## Patterns and expressions -/

/-- Types whose holes have been introduced, and computations that keep the invariant. -/
def keeping (R : List String → Prop) : Discipline where
  Sound := CheckState.Sound R
  Fits st := Ty.Below R st.nextHole
  Written := Ty.Solid R
  Later st st' := st.nextHole ≤ st'.nextHole
  Follows := Keeps R
  later hle ht := ht.mono hle
  written ht := ht.below _
  con _ hargs := .con hargs
  args := Ty.every_con.1
  fields h := (Ty.every_record.1 h).2
  pure := keeps_pure
  fail hst _ := keeps_fail hst _ _
  bind := Keeps.bind
  visit hst := visit_keeps hst _
  fresh := fresh_keeps
  zonk := zonk_keeps
  unify := unify_keeps
  instantiate hst hs := instantiate_keeps hst hs
  generalize hst henv := generalize_keeps hst (TypeEnv.below_iff.2 henv)
  resolve hst henv := resolve_keeps hst (TypeEnv.below_iff.2 henv)

theorem keeping_allowsRecords (hR : AllowsDistinct R) : (keeping R).AllowsRecords :=
  fun hnames => Every.record (hR _ hnames)

theorem defaultContext_keeps {span : Span} (hst : st.Sound R) (ht : t.Below R st.nextHole) :
    Keeps R (defaultContext t span) st fun _ _ => True :=
  Discipline.defaultContext (D := keeping R) hst ht

section
variable (hst : st.Sound R) (henv : env.Below R st.nextHole)
include hst henv

theorem declared_keeps {type? : Option Ty} (ht : ∀ t ∈ type?, t.Solid R) :
    Keeps R (type?.mapM (resolve env · span)) st fun declared _ => ∀ u ∈ declared, u.Solid R :=
  Discipline.declared (D := keeping R) ⟨hst, TypeEnv.below_iff.1 henv⟩ ht

theorem inferPattern_keeps (p : Pattern) (hp : p.AllTypes (Ty.Solid R)) : Keeps R (inferPattern env p) st fun r st' =>
    r.1.Below R st'.nextHole ∧ ∀ b ∈ r.2, b.2.Below R st'.nextHole :=
  (keeping R).inferPattern p hp ⟨hst, TypeEnv.below_iff.1 henv⟩

theorem inferPatterns_keeps (ps : List Pattern) (hps : Pattern.AllTypesList (Ty.Solid R) ps) :
    Keeps R (inferPatterns env ps) st fun r st' =>
      (∀ t ∈ r.1, t.Below R st'.nextHole) ∧ ∀ b ∈ r.2, b.2.Below R st'.nextHole :=
  (keeping R).inferPatterns ps hps ⟨hst, TypeEnv.below_iff.1 henv⟩

variable (hR : AllowsDistinct R)
include hR

theorem inferExpr_keeps (e : Expr) (he : e.AllTypes (Ty.Solid R)) :
    Keeps R (inferExpr env e) st fun t st' => t.Below R st'.nextHole :=
  Discipline.inferExpr (keeping_allowsRecords hR) e he ⟨hst, TypeEnv.below_iff.1 henv⟩

theorem inferBody_keeps (stmts : List Stmt) {c : Ty} (hstmts : Stmt.AllTypesList (Ty.Solid R) stmts)
    (hc : c.Below R st.nextHole) : Keeps R (inferBody env c stmts) st fun t st' => t.Below R st'.nextHole :=
  Discipline.inferBody (keeping_allowsRecords hR) stmts hstmts ⟨hst, TypeEnv.below_iff.1 henv⟩ hc

theorem inferDecl_keeps (d : Decl) (topLevel : Bool) (hd : d.AllTypes (Ty.Solid R)) :
    Keeps R (inferDecl env topLevel d) st fun s st' => s.type.Below R st'.nextHole :=
  Discipline.inferDecl (keeping_allowsRecords hR) d topLevel hd ⟨hst, TypeEnv.below_iff.1 henv⟩

theorem inferGroup_keeps (g : Group) (hg : g.AllTypes (Ty.Solid R)) : Keeps R (inferGroup env g) st fun r st' =>
    (∀ s ∈ r.1, s.type.Below R st'.nextHole) ∧ r.2.All (Ty.Below R st'.nextHole) (Ty.Solid R) :=
  Discipline.inferGroup (keeping_allowsRecords hR) g hg ⟨hst, TypeEnv.below_iff.1 henv⟩

theorem checkExpr_keeps {e : Expr} (he : e.AllTypes (Ty.Solid R)) :
    Keeps R (checkExpr env e) st fun s st' => s.type.Below R st'.nextHole := by
  unfold checkExpr
  refine (inferExpr_keeps hst henv hR e he).bind fun t st1 hst1 hle1 ht => ?_
  exact generalize_keeps hst1 (henv.mono hle1) ht

end

end Check

/-! ## Checks from the initial state -/

/-- Whoever follows bindings comes to an end: the steps from a hole to what it is bound to and from a type to
its parts, replacing holes one by one, and unification, however much fuel it is given. -/
structure Ty.Ends (bs : Bindings) : Prop where
  follows : WellFounded fun u t => Ty.Follows bs t u
  zonks : ∀ t u, Ty.Zonks bs t u ↔ u = Ty.applyBindings bs t
  unifies : ∀ a b, ∃ enough, ∀ fuel, enough ≤ fuel →
    Ty.solve fuel (Ty.split (Ty.applyBindings bs a) (Ty.applyBindings bs b)) bs = Ty.unify bs a b

theorem Ty.Layered.ends {bs : Bindings} (h : Layered bs) : Ty.Ends bs := by
  refine ⟨h.wellFounded_follows, fun _ _ => h.zonks_iff, fun a b => ?_⟩
  refine ⟨(Ty.applyBindings bs a).holes.length + (Ty.applyBindings bs b).holes.length, fun fuel hfuel => ?_⟩
  rw [Ty.unify_eq_solve bs a b (fuel - _), Nat.add_sub_cancel' hfuel]

/-- The bindings have no cycles and mention only holes that have been introduced, and following them ends. -/
structure CheckState.WellFormed (st : CheckState) : Prop where
  acyclic : Ty.Acyclic st.bindings
  introduced : ∀ b ∈ st.bindings, b.1 < st.nextHole ∧ b.2.Introduced st.nextHole
  ends : Ty.Ends st.bindings

theorem CheckState.Sound.wellFormed {st : CheckState} (h : st.Sound R) : st.WellFormed :=
  ⟨h.layered.acyclic, fun b hb => ⟨(h.bound b hb).1, (h.bound b hb).2.mem_holes⟩, h.layered.ends⟩

theorem CheckState.sound_initial : CheckState.initial.Sound R :=
  ⟨trivial, List.forall_mem_nil _⟩

namespace Check

/-- From the initial state on, the computation passes through well-formed states only, also the one that an
error leaves behind; a result satisfies `P` for the number of holes introduced. -/
structure Lawful {α : Type} (x : Check α) (P : Nat → α → Prop) : Prop where
  throughout : Throughout CheckState.WellFormed x .initial
  last : (stateAfter x .initial).WellFormed
  result : ∀ a st, x .initial = .ok a st → P st.nextHole a

theorem Keeps.lawful {α : Type} {x : Check α} {Q : α → CheckState → Prop} {P : Nat → α → Prop}
    (h : Keeps R x .initial Q) (hQ : ∀ a st, Q a st → P st.nextHole a) : Lawful x P where
  throughout := h.throughout.imp fun _ => CheckState.Sound.wellFormed
  last := h.throughout.last.wellFormed
  result a st hx := hQ a st (h.result a st hx).2

theorem solid_eq_noHoles : Ty.Solid (fun _ => True) = Ty.NoHoles :=
  funext fun _ => propext ⟨Every.mem_holes, Ty.every_of_holes fun _ => trivial⟩

/-- Whatever is checked in an environment without holes, and whether it has a type or not: from the initial
state on, no bindings ever form a cycle, all holes in them, in the environment and in what is returned have
been introduced, and so every step that follows bindings ends. -/
theorem infer_lawful {env : TypeEnv} (henv : env.NoHoles) (haliases : ∀ e ∈ env.aliases, e.2.NoHoles) :
    (∀ e : Expr, e.AllTypes Ty.NoHoles → Lawful (inferExpr env e) Ty.Introduced) ∧
    (∀ p : Pattern, p.AllTypes Ty.NoHoles → Lawful (inferPattern env p) fun n r =>
      r.1.Introduced n ∧ ∀ b ∈ r.2, b.2.Introduced n) ∧
    (∀ (context : Ty) (stmts : List Stmt), context.NoHoles → Stmt.AllTypesList Ty.NoHoles stmts →
      Lawful (inferBody env context stmts) Ty.Introduced) ∧
    (∀ g : Group, g.AllTypes Ty.NoHoles → Lawful (inferGroup env g) fun n r =>
      (∀ s ∈ r.1, s.type.Introduced n) ∧ ∀ e ∈ r.2.types, e.2.type.Introduced n) ∧
    (∀ (topLevel : Bool) (d : Decl), d.AllTypes Ty.NoHoles →
      Lawful (checkDecl env topLevel d) fun n s => s.type.Introduced n) ∧
    ∀ e : Expr, e.AllTypes Ty.NoHoles → Lawful (checkExpr env e) fun n s => s.type.Introduced n := by
  have hR : AllowsDistinct fun _ => True := fun _ _ => trivial
  have hbelow : env.Below (fun _ => True) CheckState.initial.nextHole := by
    rw [← solid_eq_noHoles] at haliases
    refine ⟨fun e he => Ty.every_of_holes (fun _ => trivial) fun i hi => absurd hi (henv e he i), haliases⟩
  rw [← solid_eq_noHoles]
  refine ⟨fun e he => ?_, fun p hp => ?_, fun c stmts hc hstmts => ?_, fun g hg => ?_, fun topLevel d hd => ?_,
    fun e he => ?_⟩
  · exact (inferExpr_keeps CheckState.sound_initial hbelow hR e he).lawful fun _ _ ht => ht.mem_holes
  · refine (inferPattern_keeps CheckState.sound_initial hbelow p hp).lawful fun r st hr => ?_
    exact ⟨hr.1.mem_holes, fun b hb => (hr.2 b hb).mem_holes⟩
  · exact (inferBody_keeps CheckState.sound_initial hbelow hR stmts hstmts (Ty.Solid.below hc _)).lawful
      fun _ _ ht => ht.mem_holes
  · refine (inferGroup_keeps CheckState.sound_initial hbelow hR g hg).lawful fun r st hr => ?_
    exact ⟨fun s hs => (hr.1 s hs).mem_holes, fun e he => (hr.2.types e he).mem_holes⟩
  · exact (inferDecl_keeps CheckState.sound_initial hbelow hR d topLevel hd).lawful fun _ _ hs => hs.mem_holes
  · exact (checkExpr_keeps CheckState.sound_initial hbelow hR he).lawful fun _ _ hs => hs.mem_holes

/-- `\f -> (f 1, f f)`: the second use of `f` does not fit the type that the first one has given it. -/
def misfitScript : Expr :=
  let at1 := Span.point "script" 1 1
  .lam at1 (.var at1 "f" none)
    (.tuple at1 [.app at1 (.var at1 "f") (.int at1 1), .app at1 (.var at1 "f") (.var at1 "f")])

theorem misfitScript_lawful :
    (TypeEnv.mk [] []).NoHoles ∧ misfitScript.AllTypes Ty.NoHoles ∧
      ∃ error st, inferExpr ⟨[], []⟩ misfitScript .initial = .error error st ∧
        st.bindings = [(0, .fn .int (.hole 1))] ∧ st.WellFormed := by
  have htypes : misfitScript.AllTypes Ty.NoHoles := by
    simp [misfitScript, Expr.AllTypes, Expr.AllTypesList, Pattern.AllTypes]
  have hlawful := (@infer_lawful ⟨[], []⟩ (List.forall_mem_nil _) (List.forall_mem_nil _)).1 _ htypes
  exact ⟨List.forall_mem_nil _, htypes, _, _, rfl, rfl, hlawful.last⟩

end Check

end VeriScript
