import VeriScript.Proofs.Typing.Correspondence
import VeriScript.Proofs.Typing.State

/-!
# Inference with more names in scope

A check that succeeds also succeeds with more names in scope, and it comes to the same result by the same steps, as
long as the types of these names have no holes.  Names that the script binds itself hide the new names as they hide
any other.

* `TypeEnv.Widens` — an environment with more names.
* `Check.Carries` — what one computation achieves, the other achieves as well.
* `Check.widening` — inference; `checkGroup_carries` — the check of a group of declarations.
-/

namespace VeriScript

/-- The second environment gives the names of the first the same schemas; the types of its further names have no
holes. -/
structure TypeEnv.Widens (env env' : TypeEnv) : Prop where
  aliases : env'.aliases = env.aliases
  types : ∀ x s, Table.get? env.types x = some s → Table.get? env'.types x = some s
  kept : ∀ e ∈ env.types, e ∈ env'.types
  added : ∀ e ∈ env'.types, e ∈ env.types ∨ e.2.type.NoHoles

namespace TypeEnv.Widens

variable {env env' : TypeEnv}

/-! ## Environments -/

theorem bind (h : env.Widens env') (name : String) (s : Schema) : (env.bind name s).Widens (env'.bind name s) where
  aliases := h.aliases
  types x r hx := by
    by_cases hname : x = name
    · subst hname
      rw [TypeEnv.bind, Table.get?_insert_self] at hx ⊢
      exact hx
    · rw [TypeEnv.bind, Table.get?_insert_of_ne hname] at hx ⊢
      exact h.types x r hx
  kept e he := by
    rcases List.mem_cons.1 he with rfl | he
    · exact List.mem_cons_self
    · have hmem := Table.mem_erase.1 he
      exact List.mem_cons_of_mem _ (Table.mem_erase.2 ⟨h.kept e hmem.1, hmem.2⟩)
  added e he := by
    rcases List.mem_cons.1 he with rfl | he
    · exact .inl List.mem_cons_self
    · have hmem := Table.mem_erase.1 he
      exact (h.added e hmem.1).imp_left fun hold => List.mem_cons_of_mem _ (Table.mem_erase.2 ⟨hold, hmem.2⟩)

theorem bindAll (h : env.Widens env') (entries : List (String × Schema)) :
    (env.bindAll entries).Widens (env'.bindAll entries) :=
  List.foldl_rel h fun e _ _ _ h => h.bind e.1 e.2

theorem bindAlias (h : env.Widens env') (name : String) (t : Ty) :
    (env.bindAlias name t).Widens (env'.bindAlias name t) :=
  { h with aliases := by simp [TypeEnv.bindAlias, h.aliases] }

theorem bindPattern (h : env.Widens env') (p : Pattern) (s : Schema) :
    (Check.bindPattern env p s).Widens (Check.bindPattern env' p s) :=
  h.bindAll _

end TypeEnv.Widens

/-! ## Generalisation -/

theorem Ty.NoHoles.applyBindings_eq {t : Ty} (h : t.NoHoles) (bs : Bindings) : Ty.applyBindings bs t = t :=
  Ty.applyBindings_of_freeOf fun i hi => absurd hi (h i)

theorem Ty.generalizeOver_congr {kept kept' : List Nat} (h : ∀ i, i ∈ kept' ↔ i ∈ kept) (t : Ty) :
    t.generalizeOver kept' = t.generalizeOver kept := by
  have hcontains : ∀ i, kept'.contains i = kept.contains i := by
    intro i
    simp [h i]
  simp only [Ty.generalizeOver, hcontains]

namespace TypeEnv.Widens

variable {env env' : TypeEnv} (h : env.Widens env')
include h

/-- The further names share no holes with a type, so they do not stand in the way of quantifying them. -/
theorem generalize (t : Ty) : Check.generalize env' t = Check.generalize env t := by
  have hkept : ∀ (bs : Bindings) (i : Nat),
      (i ∈ env'.types.flatMap fun e => (Ty.applyBindings bs e.2.type).holes) ↔
        i ∈ env.types.flatMap fun e => (Ty.applyBindings bs e.2.type).holes := by
    intro bs i
    simp only [List.mem_flatMap]
    constructor
    · rintro ⟨e, he, hi⟩
      rcases h.added e he with hold | hclosed
      · exact ⟨e, hold, hi⟩
      · rw [hclosed.applyBindings_eq] at hi
        exact absurd hi (hclosed i)
    · rintro ⟨e, he, hi⟩
      exact ⟨e, h.kept e he, hi⟩
  funext st
  rw [Check.generalize_eq, Check.generalize_eq]
  exact congrArg (EStateM.Result.ok · st) (Ty.generalizeOver_congr (hkept st.bindings) _)

theorem resolve (t : Ty) (span : Option Span) : Check.resolve env' t span = Check.resolve env t span := by
  rw [Check.resolve, h.aliases, Check.resolve]

end TypeEnv.Widens

namespace Check

/-! ## Computations -/

variable {α β : Type}

/-- Where the first computation succeeds, the second does, in the same state and with a result that is related. -/
def Carries (R : α → α → Prop) (x y : Check α) : Prop :=
  ∀ st a st', x st = .ok a st' → ∃ b, y st = .ok b st' ∧ R a b

namespace Carries

variable {R : α → α → Prop} {S : β → β → Prop} {x y : Check α} {f g : α → Check β}

theorem refl (hR : ∀ a, R a a) (x : Check α) : Carries R x x := fun _ a _ hx => ⟨a, hx, hR a⟩

theorem same (x : Check α) : Carries (fun a b => b = a) x x :=
  fun _ a _ hx => ⟨a, hx, rfl⟩

theorem pure {a b : α} (h : R a b) : Carries R (Pure.pure a) (Pure.pure b) := by
  intro st a' st' hx
  cases hx
  exact ⟨b, rfl, h⟩

theorem fail (fault : TypeFault) (span : Option Span) : Carries R (Check.fail fault span) y := by
  intro st a st' hx
  cases hx

theorem bind (hx : Carries R x y) (hf : ∀ a b, R a b → Carries S (f a) (g b)) : Carries S (x >>= f) (y >>= g) := by
  intro st b st2 hrun
  simp only [Bind.bind, EStateM.bind] at hrun ⊢
  cases hfirst : x st with
  | error e st1 =>
    rw [hfirst] at hrun
    cases hrun
  | ok a st1 =>
    rw [hfirst] at hrun
    obtain ⟨a', ha', hR⟩ := hx st a st1 hfirst
    rw [ha']
    exact hf a a' hR st1 b st2 hrun

end Carries

/-! ## Inference -/

/-- The types of names that both environments have are the same. -/
def widening : Correspondence where
  Matches R := Carries R
  onTy := id
  Written _ := True
  name := ""
  Env _ := TypeEnv.Widens
  con _ _ := by rw [List.map_id, id]
  record _ := by rw [id, List.map_id'']; exact fun _ => rfl
  written _ := rfl
  imp h _ := h
  bindName h := h.bind _ _
  bindAlias _ h := h.bindAlias _ _
  pure := .pure
  fail := .fail _ _
  bind := .bind
  visit _ := .refl (fun _ => trivial) _
  fresh := .same _
  zonk _ := .same _
  unify _ _ _ := .refl (fun _ => trivial) _
  generalize t h := h.generalize t ▸ .same _
  resolve h _ := h.resolve _ _ ▸ .refl (fun _ => ⟨rfl, trivial⟩) _
  recordField _ _ _ := .same _
  tupleElem _ _ _ := .same _
  var {env env' span name} h := by
    unfold inferExpr
    refine .bind (.same _) fun _ _ _ => ?_
    cases hname : Table.get? env.types name with
    | none => exact .fail _ _
    | some s =>
      rw [h.types name s hname]
      exact .same _
  single {V env env' span d} hd h := by
    unfold inferGroup
    refine hd.bind ?_
    rintro s _ rfl
    exact .pure ⟨rfl, h.bindPattern d.pattern s⟩

end Check

theorem checkGroup_carries {env env' : TypeEnv} (h : env.Widens env') (g : Group) :
    Check.Carries Eq (checkGroup env g) (checkGroup env' g) := by
  have hgroup := Check.widening.inferGroup g (V := True) g.allTypes_true h
  refine hgroup.bind fun r r' hr => .pure ?_
  exact (hr.1.trans (List.map_id _)).symm

end VeriScript
