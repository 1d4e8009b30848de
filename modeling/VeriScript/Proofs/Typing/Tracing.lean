import VeriScript.Proofs.Ty.Equality
import VeriScript.Proofs.Typing.Discipline

/-!
# Inference from any state

What has been visited before does not matter to inference: it is kept for the trace only.  And bindings are added in
layers, whatever is checked.

* `CheckState.seeing` — the state with more expressions visited earlier.
* `Check.Blind` — a computation that comes to the same end, whatever has been visited before.
* `Check.Steady` — such a computation that adds bindings in layers, from one state; one rule for each step.
* `Check.inferExpr_blind`, `Check.inferExpr_layered` — inference.
-/

namespace VeriScript

open Ty (Layered)

/-- The state with more expressions visited before all others. -/
def CheckState.seeing (st : CheckState) (seen : List String) : CheckState :=
  { st with visited := st.visited ++ seen }

namespace Check

variable {α β : Type}

/-- Whatever has been visited before, the computation comes to the same end. -/
def Blind (x : Check α) : Prop :=
  ∀ st seen, x (st.seeing seen) =
    match x st with
    | .ok a st' => .ok a (st'.seeing seen)
    | .error e st' => .error e (st'.seeing seen)

/-- From the state, the computation comes to the same end, whatever has been visited before.  It adds bindings in
layers, and with a result `Q` holds. -/
structure Steady (x : Check α) (st : CheckState) (Q : α → CheckState → Prop) : Prop where
  blind : ∀ seen, x (st.seeing seen) =
    match x st with
    | .ok a st' => .ok a (st'.seeing seen)
    | .error e st' => .error e (st'.seeing seen)
  result : ∀ a st', x st = .ok a st' → (Layered st.bindings → Layered st'.bindings) ∧ Q a st'

namespace Steady

variable {x : Check α} {f : α → Check β} {st : CheckState} {Q : α → CheckState → Prop} {Q' : β → CheckState → Prop}
  {a : α} {fault : TypeFault} {span : Option Span}

theorem pure (h : Q a st) : Steady (Pure.pure a) st Q := by
  refine ⟨fun _ => rfl, fun b st' hb => ?_⟩
  cases hb
  exact ⟨id, h⟩

theorem fail : Steady (Check.fail fault span : Check α) st Q :=
  ⟨fun _ => rfl, nofun⟩

theorem bind (hx : Steady x st Q) (hf : ∀ a st', Q a st' → Steady (f a) st' Q') : Steady (x >>= f) st Q' := by
  constructor
  · intro seen
    simp only [Bind.bind, EStateM.bind, hx.blind seen]
    cases h : x st with
    | ok a st' => exact (hf a st' (hx.result a st' h).2).blind seen
    | error e st' => rfl
  · intro b st2 hb
    simp only [Bind.bind, EStateM.bind] at hb
    cases h : x st with
    | ok a st' =>
      rw [h] at hb
      obtain ⟨hlayered, ha⟩ := hx.result a st' h
      obtain ⟨hlayered', hb⟩ := (hf a st' ha).result b st2 hb
      exact ⟨hlayered' ∘ hlayered, hb⟩
    | error e st' =>
      rw [h] at hb
      cases hb

theorem visit (kind : String) : Steady (Check.visit kind) st fun _ _ => True := by
  refine ⟨fun _ => rfl, fun a st' h => ?_⟩
  cases h
  exact ⟨id, trivial⟩

theorem fresh : Steady Check.fresh st fun _ _ => True := by
  refine ⟨fun _ => rfl, fun t st' h => ?_⟩
  cases h
  exact ⟨id, trivial⟩

theorem zonk (t : Ty) : Steady (Check.zonk t) st fun _ _ => True := by
  refine ⟨fun _ => rfl, fun u st' h => ?_⟩
  cases h
  exact ⟨id, trivial⟩

theorem unify (t u : Ty) : Steady (Check.unify t u span) st fun _ _ => True := by
  refine ⟨fun seen => ?_, fun a st' h => ⟨fun hst => ?_, trivial⟩⟩
  · simp only [Check.unify, Bind.bind, EStateM.bind, get_eq, set_eq, CheckState.seeing]
    cases Ty.unify st.bindings t u with
    | mk bs fault? =>
      cases fault? with
      | none => rfl
      | some fault => cases fault <;> rfl
  · have hlayered := hst.unify t u
    rwa [unify_ok h] at hlayered

theorem instantiate (s : Schema) : Steady (Check.instantiate s) st fun _ _ => True := by
  have hholes : ∀ (vars : List String) (st : CheckState),
      Steady (vars.mapM fun name => do return (name, ← Check.fresh)) st fun _ _ => True := by
    intro vars
    induction vars with
    | nil => exact fun _ => pure trivial
    | cons name vars ih =>
      intro st
      rw [List.mapM_cons]
      have hfirst : Steady (do return (name, ← Check.fresh)) st fun _ _ => True := fresh.bind fun _ _ _ => pure trivial
      exact hfirst.bind fun _ _ _ => (ih _).bind fun _ _ _ => pure trivial
  exact (hholes s.vars st).bind fun _ _ _ => pure trivial

theorem generalize (env : TypeEnv) (t : Ty) : Steady (Check.generalize env t) st fun _ _ => True := by
  refine ⟨fun _ => by simp only [generalize_eq]; rfl, fun s st' h => ?_⟩
  rw [generalize_eq] at h
  cases h
  exact ⟨id, trivial⟩

theorem resolve (env : TypeEnv) (t : Ty) : Steady (Check.resolve env t span) st fun _ _ => True := by
  unfold Check.resolve
  split
  · exact pure trivial
  · exact fail

end Steady

/-- Any types may occur, in any state. -/
def steady : Discipline where
  Sound _ := True
  Fits _ _ := True
  Written _ := True
  Later _ _ := True
  Follows := Steady
  later _ _ := trivial
  written _ := trivial
  con _ _ := trivial
  args _ _ _ := trivial
  fields _ _ _ := trivial
  pure _ := .pure
  fail _ _ := .fail
  bind hx hf := hx.bind fun a st' => hf a st' trivial trivial
  visit _ := .visit _
  fresh _ := .fresh
  zonk _ _ := .zonk _
  unify _ _ _ := .unify _ _
  instantiate _ _ := .instantiate _
  generalize _ _ _ := .generalize _ _
  resolve _ _ _ := .resolve _ _

theorem inferExpr_steady (e : Expr) (env : TypeEnv) (st : CheckState) :
    Steady (inferExpr env e) st fun _ _ => True :=
  Discipline.inferExpr (D := steady) (fun _ _ => trivial) e e.allTypes_true
    ⟨trivial, fun _ _ => trivial, fun _ _ => trivial⟩

theorem inferExpr_blind (e : Expr) (env : TypeEnv) : Blind (inferExpr env e) :=
  fun st => (inferExpr_steady e env st).blind

theorem inferPattern_layered {p : Pattern} {env : TypeEnv} {st st' : CheckState} {r : Ty × List (String × Ty)}
    (hst : Layered st.bindings) (h : inferPattern env p st = .ok r st') : Layered st'.bindings := by
  have hsteady : Steady (inferPattern env p) st _ :=
    steady.inferPattern p p.allTypes_true ⟨trivial, fun _ _ => trivial, fun _ _ => trivial⟩
  exact (hsteady.result r st' h).1 hst

theorem inferExpr_layered {e : Expr} {env : TypeEnv} {st st' : CheckState} {t : Ty} (hst : Layered st.bindings)
    (h : inferExpr env e st = .ok t st') : Layered st'.bindings :=
  ((inferExpr_steady e env st).result t st' h).1 hst

end Check

end VeriScript
