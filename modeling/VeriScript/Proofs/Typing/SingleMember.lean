import VeriScript.Proofs.Typing.Shift

/-!
# Recursive groups that do not recurse

A recursive group of one declaration that does not use its own name is checked like the declaration on its own: the
hole that stands for the name is the only hole more, and it comes to the type of the body in the end.

* `Ty.unify_hole` — a hole that is new comes to whatever it is unified with.
* `checkGroup_single`, `checkGroup_recursive` — both checks, by the type of the body.
* `checkGroup_single_iff_recursive` — they come to the same schemas.
-/

namespace VeriScript

open Ty (FreeOf)
open Check

/-! ## New holes -/

namespace Ty

variable {bs : Bindings} {i : Nat} {t : Ty}

theorem split_hole (h : t ≠ .hole i) : split (.hole i) t = [(.hole i, t)] := by
  cases t with
  | hole j =>
    have hij : i ≠ j := fun hij => h (hij ▸ rfl)
    simp [split, hij]
  | _ => rfl

theorem unify_hole (hfree : FreeOf bs (.hole i)) (hi : i ∉ (applyBindings bs t).holes) :
    unify bs (.hole i) t = ((i, applyBindings bs t) :: bs, none) := by
  have hne : applyBindings bs t ≠ .hole i := by
    intro heq
    rw [heq, mem_holes_hole] at hi
    exact hi rfl
  have hfuel : (Ty.hole i).holes.length + (applyBindings bs t).holes.length =
      (applyBindings bs t).holes.length + 1 := by
    rw [show (Ty.hole i).holes = [i] from rfl, List.length_singleton, Nat.add_comm]
  simp only [unify, applyBindings_of_freeOf hfree, split_hole hne, hfuel]
  rw [solve, if_neg hi]
  simp [splitFilled, solve]

end Ty

/-- The state with a hole that stands for a type. -/
def CheckState.fill (st : CheckState) (i : Nat) (t : Ty) : CheckState :=
  { st with bindings := (i, Ty.applyBindings st.bindings t) :: st.bindings }

theorem CheckState.applyBindings_fill {st : CheckState} {i : Nat} {t : Ty} (hfree : FreeOf st.bindings (.hole i)) :
    Ty.applyBindings (st.fill i t).bindings (.hole i) = Ty.applyBindings st.bindings t := by
  rw [CheckState.fill, Ty.applyBindings_cons, Ty.applyBindings_of_freeOf hfree]
  simp [Ty.fill]

namespace Check

theorem unify_hole_ok {st : CheckState} {i : Nat} {t : Ty} (span : Option Span) (hfree : FreeOf st.bindings (.hole i))
    (hi : i ∉ (Ty.applyBindings st.bindings t).holes) : unify (.hole i) t span st = .ok () (st.fill i t) := by
  have hunify := Ty.unify_hole hfree hi
  simp only [unify, Bind.bind, EStateM.bind, get_eq, set_eq, hunify]
  rfl

theorem generalize_of_noHoles {env : TypeEnv} (henv : env.NoHoles) (t : Ty) (st : CheckState) :
    generalize env t st = .ok ((Ty.applyBindings st.bindings t).generalizeOver []) st := by
  have hkept : keptHoles env st.bindings = [] := by
    refine List.flatMap_eq_nil_iff.2 fun e he => List.eq_nil_iff_forall_not_mem.2 fun i hi => ?_
    rw [(henv e he).applyBindings_eq] at hi
    exact henv e he i hi
  rw [generalize_eq, schemaOf, hkept]

end Check

theorem checkGroup_of_ok {env env' : TypeEnv} {g : Group} {schemas : List Schema} {st st' : CheckState}
    (h : inferGroup env g st = .ok (schemas, env') st') : checkGroup env g st = .ok schemas st' := by
  rw [checkGroup, bind_of_ok h]
  rfl

theorem inferExpr_of_single {env : TypeEnv} {gspan dspan : Span} {p : Pattern} {e : Expr} {schemas : List Schema}
    {st st' : CheckState} (h : checkGroup env (.single gspan (.mk dspan p e)) st = .ok schemas st') :
    ∃ t st1, inferExpr env e st = .ok t st1 := by
  obtain ⟨r, st1, hgroup, -⟩ := exists_of_bind_ok h
  unfold inferGroup at hgroup
  obtain ⟨s, st2, hdecl, -⟩ := exists_of_bind_ok hgroup
  unfold inferDecl at hdecl
  obtain ⟨t, st3, hexpr, -⟩ := exists_of_bind_ok hdecl
  exact ⟨t, st3, hexpr⟩

/-! ## Both checks -/

section
variable {env : TypeEnv} (henv : env.NoHoles) (haliases : ∀ e ∈ env.aliases, e.2.NoHoles)
  (gspan dspan pspan : Span) {f : String} {e : Expr}

include henv haliases

variable {st : CheckState} {t : Ty}

omit gspan dspan pspan in
/-- What inference leaves behind is about holes that have been introduced. -/
theorem inferExpr_introduced (he : e.AllTypes Ty.NoHoles) (hinfer : Check.inferExpr env e .initial = .ok t st) :
    FreeOf st.bindings (.hole st.nextHole) ∧ st.nextHole ∉ (Ty.applyBindings st.bindings t).holes := by
  have hbelow : env.Below (fun _ => True) CheckState.initial.nextHole := by
    rw [← Check.solid_eq_noHoles] at haliases
    exact ⟨fun e he => Ty.every_of_holes (fun _ => trivial) fun i hi => absurd hi (henv e he i), haliases⟩
  rw [← Check.solid_eq_noHoles] at he
  have hkeeps := Check.inferExpr_keeps CheckState.sound_initial hbelow (fun _ _ => trivial) e he
  have hsound := hkeeps.sound_of_ok hinfer
  have ht : t.Below (fun _ => True) st.nextHole := (hkeeps.result t st hinfer).2
  constructor
  · intro i hi b hb
    rw [Ty.mem_holes_hole.1 hi]
    exact Nat.ne_of_lt (hsound.bound b hb).1
  · intro hmem
    have hlt := (ht.applyBindings fun b hb => (hsound.bound b hb).2).mem_holes _ hmem
    omega

theorem checkGroup_single (he : e.AllTypes Ty.NoHoles) (hinfer : inferExpr env e .initial = .ok t st) :
    ∃ st', checkGroup env (.single gspan (.mk dspan (.var pspan f none) e)) .initial =
      .ok [(Ty.applyBindings st.bindings t).generalizeOver []] st' := by
  obtain ⟨hfree, hnew⟩ := inferExpr_introduced henv haliases he hinfer
  -- the hole for the name is the last one, and no other type has it
  let st1 : CheckState := { st with nextHole := st.nextHole + 1 }
  let schema := (Ty.applyBindings st.bindings t).generalizeOver []
  have hpattern : inferPattern env (.var pspan f none) st = .ok (.hole st.nextHole, [(f, .hole st.nextHole)]) st1 := by
    unfold inferPattern
    rfl
  have hunify : unify (.hole st.nextHole) t dspan st1 = .ok () (st1.fill st.nextHole t) := unify_hole_ok _ hfree hnew
  have hschema : generalize env t (st1.fill st.nextHole t) =
      .ok schema (st1.fill st.nextHole t) := by
    rw [generalize_of_noHoles henv, CheckState.fill, Ty.applyBindings_cons, Ty.fill_of_not_mem hnew]
  have hdecl : inferDecl env false (.mk dspan (.var pspan f none) e) .initial =
      .ok schema (st1.fill st.nextHole t) := by
    unfold inferDecl
    rw [bind_of_ok hinfer, bind_of_ok hpattern]
    dsimp only
    rw [bind_of_ok hunify]
    exact hschema
  have hgroup : inferGroup env (.single gspan (.mk dspan (.var pspan f none) e)) .initial =
      .ok ([schema], bindPattern env (.var pspan f none) schema) (st1.fill st.nextHole t) := by
    unfold inferGroup
    rw [bind_of_ok hdecl]
    rfl
  exact ⟨_, checkGroup_of_ok hgroup⟩

omit gspan dspan pspan in
/-- The name stands for the first hole while the body is checked. -/
theorem inferExpr_member (he : e.AllTypes Ty.NoHoles) (hf : ¬ e.Uses f) :
    ResultsMirror (fun t t' => t' = t.shift) (inferExpr env e .initial)
      (inferExpr (env.bind f (.mono (.hole 0))) e CheckState.initial.shift) :=
  inferExpr_mirrors e he ((TypeEnv.Shifts.of_noHoles henv haliases).imp hf) .initial trivial

omit henv haliases in
theorem inferMembers_one : inferMembers env [.mk dspan (.var pspan f none) e] env .initial =
    .ok ([.hole 0], env.bind f (.mono (.hole 0))) CheckState.initial.shift := by
  unfold inferMembers inferMembers inferPattern
  rfl

omit henv haliases in
theorem inferExpr_of_recursive {schemas : List Schema}
    (h : checkGroup env (.recursive gspan [.mk dspan (.var pspan f none) e]) .initial = .ok schemas st) :
    ∃ t st1, inferExpr (env.bind f (.mono (.hole 0))) e CheckState.initial.shift = .ok t st1 := by
  obtain ⟨r, st1, hgroup, -⟩ := exists_of_bind_ok h
  unfold inferGroup at hgroup
  rw [bind_of_ok (inferMembers_one dspan pspan)] at hgroup
  dsimp only at hgroup
  obtain ⟨_, st2, hbodies, -⟩ := exists_of_bind_ok hgroup
  unfold inferBodies at hbodies
  obtain ⟨t, st3, hexpr, -⟩ := exists_of_bind_ok hbodies
  exact ⟨t, st3, hexpr⟩

theorem checkGroup_recursive (he : e.AllTypes Ty.NoHoles) (hf : ¬ e.Uses f)
    (hinfer : inferExpr env e .initial = .ok t st) :
    ∃ st', checkGroup env (.recursive gspan [.mk dspan (.var pspan f none) e]) .initial =
      .ok [(Ty.applyBindings st.bindings t).generalizeOver []] st' := by
  have hbody : inferExpr (env.bind f (.mono (.hole 0))) e CheckState.initial.shift = .ok t.shift st.shift := by
    have hmirror := inferExpr_member henv haliases he hf
    rw [hinfer] at hmirror
    generalize inferExpr (env.bind f (.mono (.hole 0))) e CheckState.initial.shift = r at hmirror ⊢
    cases hmirror with
    | ok st related layered => rw [related]
  have hzonk : Ty.applyBindings st.shift.bindings t.shift = (Ty.applyBindings st.bindings t).shift :=
    (Ty.shift_applyBindings st.bindings t).symm
  have hnew : 0 ∉ (Ty.applyBindings st.shift.bindings t.shift).holes := by
    rw [hzonk]
    exact Ty.zero_not_mem_holes_shift _
  have hfree : FreeOf st.shift.bindings (.hole 0) := Ty.freeOf_shift_hole_zero st.bindings
  have hunify : unify (.hole 0) t.shift dspan st.shift = .ok () (st.shift.fill 0 t.shift) := unify_hole_ok _ hfree hnew
  let schema := (Ty.applyBindings st.bindings t).generalizeOver []
  have hschema : generalize env (.hole 0) (st.shift.fill 0 t.shift) = .ok schema (st.shift.fill 0 t.shift) := by
    have hclosed : schema.type.NoHoles := fun i hi => List.not_mem_nil (mem_holes_generalizeOver hi).2
    have hkept : ∀ i, i + 1 ∈ ([] : List Nat) ↔ i ∈ ([] : List Nat) := by simp
    rw [generalize_of_noHoles henv, CheckState.applyBindings_fill hfree, hzonk, Ty.generalizeOver_shift hkept,
      Schema.shift_of_noHoles hclosed]
  have hbodies : inferBodies (env.bind f (.mono (.hole 0))) [.mk dspan (.var pspan f none) e] [.hole 0]
      CheckState.initial.shift = .ok () (st.shift.fill 0 t.shift) := by
    unfold inferBodies inferBodies
    rw [bind_of_ok hbody, bind_of_ok hunify]
    rfl
  have hschemas : [Ty.hole 0].mapM (generalize env) (st.shift.fill 0 t.shift) =
      .ok [schema] (st.shift.fill 0 t.shift) := by
    rw [List.mapM_cons, bind_of_ok hschema]
    rfl
  have hgroup : inferGroup env (.recursive gspan [.mk dspan (.var pspan f none) e]) .initial =
      .ok ([schema], env.bind f schema) (st.shift.fill 0 t.shift) := by
    unfold inferGroup
    rw [bind_of_ok (inferMembers_one dspan pspan)]
    dsimp only
    rw [bind_of_ok hbodies, bind_of_ok hschemas]
    rfl
  exact ⟨_, checkGroup_of_ok hgroup⟩

/-- A recursive group of one declaration that does not use its name has the schemas that the declaration has on its
own. -/
theorem checkGroup_single_iff_recursive (gspan' : Span) (he : e.AllTypes Ty.NoHoles) (hf : ¬ e.Uses f)
    {schemas : List Schema} :
    (∃ st, checkGroup env (.single gspan (.mk dspan (.var pspan f none) e)) .initial = .ok schemas st) ↔
      ∃ st, checkGroup env (.recursive gspan' [.mk dspan (.var pspan f none) e]) .initial = .ok schemas st := by
  cases hinfer : inferExpr env e .initial with
  | ok t st =>
    obtain ⟨st1, hsingle⟩ := checkGroup_single henv haliases gspan dspan pspan (f := f) he hinfer
    obtain ⟨st2, hrecursive⟩ := checkGroup_recursive henv haliases gspan' dspan pspan he hf hinfer
    rw [hsingle, hrecursive]
    constructor
    · rintro ⟨_, h⟩
      cases h
      exact ⟨st2, rfl⟩
    · rintro ⟨_, h⟩
      cases h
      exact ⟨st1, rfl⟩
  | error fault st =>
    have hmember := inferExpr_member henv haliases he hf
    constructor
    · rintro ⟨_, h⟩
      obtain ⟨t, st, hok⟩ := inferExpr_of_single h
      rw [hinfer] at hok
      cases hok
    · rintro ⟨_, h⟩
      obtain ⟨t, st, hok⟩ := inferExpr_of_recursive gspan' dspan pspan h
      rw [hinfer, hok] at hmember
      cases hmember

end

end VeriScript
