import Mathlib.Data.Fintype.Card
import Mathlib.Data.Fintype.EquivFin
import Mathlib.Data.Fintype.Sets
import Mathlib.Data.List.Permutation
import VeriScript.Proofs.Ty.Acyclic
import VeriScript.Proofs.Typing.State

/-!
# Types that have been unified are equal

Unification takes two types apart, fills a hole and goes on with what is left of the equations.  The equations
solved first stay solved, since a type with a hole filled in and the type itself come to the same once all
bindings are applied.

* `Alike` — types that differ in the order of the fields of records at most.
* `Layered.applyBindings_fill`, `Layered.applyBindings_absorb` — bindings that are applied later make up for
  those that are not applied yet.
* `solve_alike`, `unify_alike`, `solves_of_unify` — what solving equations achieves.
* `Acyclic.exists_layered` — bindings without a cycle, in whatever order, can be listed as unification lists them.
* `Check.unify_equates` — the whole of what a step of unification does to the state of inference.
-/

namespace VeriScript

namespace Ty

variable {bs bs' done : Bindings} {a b t u : Ty} {i j : Nat}

/-! ## Types up to the order of fields -/

/-- The same type up to the order of the fields of records. -/
inductive Alike : Ty → Ty → Prop
  | con {name : String} {as bs : List Ty} (length : as.length = bs.length) (args : ∀ p ∈ as.zip bs, Alike p.1 p.2) :
    Alike (.con name as) (.con name bs)
  | var {name : String} : Alike (.var name) (.var name)
  | hole {id : Nat} : Alike (.hole id) (.hole id)
  | record {fs gs : List (String × Ty)} (names : Table.sameNames fs gs)
    (fields : ∀ name a b, Table.get? fs name = some a → Table.get? gs name = some b → Alike a b) :
    Alike (.record fs) (.record gs)

theorem sameNames_map {fs gs : List (String × Ty)} (f : Ty → Ty) (h : Table.sameNames fs gs) :
    Table.sameNames (fs.map fun e => (e.1, f e.2)) (gs.map fun e => (e.1, f e.2)) := by
  refine Table.sameNames_iff.2 fun name => ?_
  simp only [Table.has, Table.get?_map, Option.isSome_map]
  exact Table.sameNames_iff.1 h name

theorem Alike.refl (t : Ty) : Alike t t := by
  induction t using induct with
  | con name args ih =>
    refine .con rfl fun p hp => ?_
    obtain ⟨a, ha, rfl⟩ : ∃ a ∈ args, (a, a) = p := by
      simpa [List.zip_eq_zipWith, List.zipWith_self] using hp
    exact ih a ha
  | var name => exact .var
  | hole id => exact .hole
  | record fields ih =>
    refine .record (Table.sameNames_iff.2 fun _ => rfl) fun name a b ha hb => ?_
    obtain rfl := Option.some.inj (ha.symm.trans hb)
    exact ih _ (Table.mem_of_get? ha)

theorem Alike.applyBindings (h : Alike t u) (bs : Bindings) : Alike (applyBindings bs t) (applyBindings bs u) := by
  induction h with
  | con length _ ih =>
    simp only [applyBindings_con]
    refine .con (by simpa using length) fun p hp => ?_
    rw [List.zip_map] at hp
    obtain ⟨q, hq, rfl⟩ := List.mem_map.1 hp
    exact ih q hq
  | var => exact .refl _
  | hole => exact .refl _
  | record names _ ih =>
    simp only [applyBindings_record]
    refine .record (sameNames_map _ names) fun name a b ha hb => ?_
    rw [Table.get?_map] at ha hb
    obtain ⟨a', ha', rfl⟩ := Option.map_eq_some_iff.1 ha
    obtain ⟨b', hb', rfl⟩ := Option.map_eq_some_iff.1 hb
    exact ih name a' b' ha' hb'

theorem Alike.denote_eq {θ : Nat → Mono} {ρ : String → Mono} (h : Alike a b) : a.denote θ ρ = b.denote θ ρ := by
  induction h with
  | con length _ ih =>
    rw [denote, denote, denoteList_eq, denoteList_eq, (map_eq_map_iff_zip length).2 ih]
  | var => rfl
  | hole => rfl
  | record names _ ih => exact denote_record_congr names ih

/-- Where the equations that two types come down to hold, up to the order of fields, the types are the same. -/
theorem split_alike (bs : Bindings) (a b : Ty)
    (h : ∀ e ∈ split a b, Alike (applyBindings bs e.1) (applyBindings bs e.2)) :
    Alike (applyBindings bs a) (applyBindings bs b) := by
  induction a using induct_parts generalizing b with
  | step a ihargs ihfields =>
    obtain hsplit | ⟨rfl, -⟩ | ⟨n, as, cs, rfl, rfl, hlength, hsplit⟩ | ⟨fs, gs, rfl, rfl, hsame, hsplit⟩ :=
      split_cases a b
    · exact h (a, b) (by rw [hsplit]; exact List.mem_singleton.2 rfl)
    · exact .refl _
    · rw [hsplit] at h
      simp only [applyBindings_con]
      refine .con (by simpa using hlength) fun p hp => ?_
      rw [List.zip_map] at hp
      obtain ⟨q, hq, rfl⟩ := List.mem_map.1 hp
      exact ihargs n as rfl q.1 (List.of_mem_zip hq).1 q.2 fun e he => h e (mem_splitList.2 ⟨q, hq, he⟩)
    · simp only [applyBindings_record]
      refine .record (sameNames_map _ hsame) fun name a b ha hb => ?_
      rw [Table.get?_map] at ha hb
      obtain ⟨a', ha', rfl⟩ := Option.map_eq_some_iff.1 ha
      obtain ⟨b', hb', rfl⟩ := Option.map_eq_some_iff.1 hb
      have hmem := Table.mem_of_get? ha'
      refine ihfields fs rfl _ hmem b' fun e he => h e ((hsplit e).2 ⟨_, hmem, ?_⟩)
      simpa [splitField, hb'] using he

/-! ## Bindings that are applied later -/

theorem Layered.applyBindings_fill (h : Layered bs) (hmem : (i, u) ∈ bs) (t : Ty) :
    applyBindings bs (fill i u t) = applyBindings bs t := by
  induction t using Ty.induct with
  | con name args ih =>
    rw [fill, fillList_eq, applyBindings_con, applyBindings_con, List.map_map]
    exact congrArg (Ty.con name) (List.map_congr_left ih)
  | var name => rw [fill]
  | hole id =>
    rw [fill]
    split
    · rename_i heq
      rw [heq, applyBindings_hole h hmem]
    · rfl
  | record fields ih =>
    rw [fill, fillFields_eq, applyBindings_record, applyBindings_record, List.map_map]
    refine congrArg Ty.record (List.map_congr_left fun f hf => ?_)
    exact congrArg (Prod.mk f.1) (ih f hf)

theorem Layered.applyBindings_absorb (h : Layered bs) (hsub : done ⊆ bs) (t : Ty) :
    applyBindings bs (applyBindings done t) = applyBindings bs t := by
  induction done with
  | nil => rfl
  | cons b done ih =>
    obtain ⟨hb, hsub⟩ := List.cons_subset.1 hsub
    rw [applyBindings_cons, h.applyBindings_fill hb, ih hsub]

theorem applyBindings_append (new bs : Bindings) (t : Ty) :
    applyBindings (new ++ bs) t = applyBindings new (applyBindings bs t) :=
  List.foldr_append

/-! ## Solving equations -/

theorem suffix_solve (fuel : Nat) (eqs : List (Ty × Ty)) (done : Bindings) : done <:+ (solve fuel eqs done).1 := by
  obtain ⟨_, -, hsuffix⟩ := solve_keeps (P := fun _ _ => True) (fun _ _ _ => trivial) fuel trivial
  exact hsuffix

theorem solve_alike {fuel : Nat} {eqs : List (Ty × Ty)} (hbs : Layered bs) (h : solve fuel eqs done = (bs, none)) :
    ∀ e ∈ eqs, Alike (applyBindings bs e.1) (applyBindings bs e.2) := by
  induction fuel generalizing eqs done with
  | zero =>
    cases eqs with
    | nil => exact List.forall_mem_nil _
    | cons e eqs => cases h
  | succ fuel ih =>
    cases eqs with
    | nil => exact List.forall_mem_nil _
    | cons e eqs =>
      obtain ⟨-, hstop⟩ | ⟨i, t, hasks, hsolve⟩ := solve_cons_cases e eqs done
      · rw [hstop] at h
        cases h
      rw [hsolve] at h
      split at h
      · cases h
      -- the binding for the first equation is among the bindings made in the end
      have hmem : (i, t) ∈ bs := by
        have hsuffix := suffix_solve fuel (splitFilled i t eqs) ((i, t) :: done)
        rw [h] at hsuffix
        exact hsuffix.subset List.mem_cons_self
      refine List.forall_mem_cons.2 ⟨?_, fun e he => ?_⟩
      · have hhole := applyBindings_hole hbs hmem
        obtain rfl | rfl := hasks
        · exact hhole ▸ .refl _
        · exact hhole ▸ .refl _
      · have hfilled := split_alike bs (fill i t e.1) (fill i t e.2) fun e' he' =>
          ih h e' (List.mem_flatMap.2 ⟨e, he, he'⟩)
        rwa [hbs.applyBindings_fill hmem, hbs.applyBindings_fill hmem] at hfilled

theorem Layered.unify (h : Layered bs) (a b : Ty) : Layered (unify bs a b).1 := by
  have hevery : ∀ t : Ty, Every (fun _ => True) (fun _ => True) t := fun t =>
    every_of_holes (fun _ => trivial) fun _ _ => trivial
  exact (unify_keeps h (fun b _ => ⟨trivial, hevery b.2⟩) (hevery a) (hevery b)).1

theorem unify_alike (hbs : Layered bs) (h : unify bs a b = (bs', none)) :
    Alike (applyBindings bs' a) (applyBindings bs' b) := by
  have hlayered := hbs.unify a b
  have hsub := (suffix_unify bs a b).subset
  rw [h] at hlayered hsub
  have hsides := split_alike bs' (applyBindings bs a) (applyBindings bs b) (solve_alike hlayered h)
  rwa [hlayered.applyBindings_absorb hsub, hlayered.applyBindings_absorb hsub] at hsides

/-- Solutions of what unification ends with make both types the same. -/
theorem solves_of_unify {θ : Nat → Mono} (hbs : Layered bs) (h : unify bs a b = (bs', none)) (hθ : Solves θ bs') :
    Solves θ bs ∧ a.under θ = b.under θ := by
  have hsub := (suffix_unify bs a b).subset
  rw [h] at hsub
  refine ⟨fun c hc => hθ c (hsub hc), ?_⟩
  have halike := (unify_alike hbs h).denote_eq (θ := θ) (ρ := .var)
  rwa [← under, ← under, under_applyBindings hθ, under_applyBindings hθ] at halike

theorem noVars_of_mem_split (ha : a.NoVars) (hb : b.NoVars) : ∀ e ∈ split a b, e.1.NoVars ∧ e.2.NoVars := by
  intro e he
  obtain ⟨h1, h2⟩ := split_within a b e he
  exact ⟨fun x hx => ha x (h1.2 x hx), fun x hx => hb x (h2.2 x hx)⟩

/-- Neither the bindings made so far nor the equations that are left have variables. -/
def WithoutVars (eqs : List (Ty × Ty)) (done : Bindings) : Prop :=
  (∀ b ∈ done, b.2.NoVars) ∧ ∀ e ∈ eqs, e.1.NoVars ∧ e.2.NoVars

theorem WithoutVars.step {e : Ty × Ty} {eqs : List (Ty × Ty)} (h : WithoutVars (e :: eqs) done) (hasks : Asks i t e) :
    WithoutVars (splitFilled i t eqs) ((i, t) :: done) := by
  obtain ⟨he, heqs⟩ := List.forall_mem_cons.1 h.2
  have ht : t.NoVars := by
    obtain rfl | rfl := hasks
    · exact he.2
    · exact he.1
  refine ⟨List.forall_mem_cons.2 ⟨ht, h.1⟩, fun e' he' => ?_⟩
  obtain ⟨e, he, he'⟩ := List.mem_flatMap.1 he'
  exact noVars_of_mem_split ((heqs e he).1.fill ht) ((heqs e he).2.fill ht) e' he'

theorem Solved.unify (h : Solved bs) (ha : a.NoVars) (hb : b.NoVars) : Solved (unify bs a b).1 := by
  have hsides := noVars_of_mem_split (ha.applyBindings h.noVars) (hb.applyBindings h.noVars)
  obtain ⟨_, hend, -⟩ := solve_keeps (fun h hasks _ => WithoutVars.step h hasks) _ ⟨h.noVars, hsides⟩
  exact (h.layered.unify a b).solved hend.1

/-! ## Putting bindings in order -/

theorem Acyclic.of_subset (h : Acyclic bs) (hsub : done ⊆ bs) : Acyclic done := by
  intro i hcycle
  refine h i (hcycle.lift id fun j k hjk => ?_)
  obtain ⟨u, hu, hk⟩ := hjk
  exact ⟨u, hsub hu, hk⟩

/-- Where there is no cycle, some binding leads to a type without bound holes. -/
theorem Acyclic.exists_freeOf (h : Acyclic bs) (hne : bs ≠ []) : ∃ b ∈ bs, FreeOf bs b.2 := by
  -- the bound holes are finitely many, so going from a hole to those it mentions ends
  let leads (i j : {i // i ∈ bs.map Prod.fst}) : Prop := Relation.TransGen (Mentions bs) j.1 i.1
  have : IsTrans _ leads := ⟨fun i j k hij hjk => hjk.trans hij⟩
  have : Std.Irrefl leads := ⟨fun i => h i.1⟩
  have hends := Finite.wellFounded_of_trans_of_irrefl leads
  obtain ⟨b0, hb0⟩ := List.exists_mem_of_ne_nil bs hne
  obtain ⟨⟨i, hi⟩, -, hlast⟩ := hends.has_min Set.univ ⟨⟨b0.1, List.mem_map_of_mem hb0⟩, trivial⟩
  obtain ⟨⟨_, u⟩, hu, rfl⟩ := List.mem_map.1 hi
  refine ⟨_, hu, fun j hj b hb hbound => ?_⟩
  exact hlast ⟨j, hbound ▸ List.mem_map_of_mem hb⟩ trivial (.single ⟨u, hu, hj⟩)

theorem Acyclic.exists_layered (h : Acyclic bs) (hkeys : (bs.map Prod.fst).Nodup) :
    ∃ bs' : Bindings, bs'.Perm bs ∧ Layered bs' := by
  generalize hn : bs.length = n
  induction n generalizing bs with
  | zero => exact ⟨bs, .refl _, by rw [List.eq_nil_of_length_eq_zero hn]; trivial⟩
  | succ n ih =>
    obtain ⟨b, hb, hfree⟩ := h.exists_freeOf (List.ne_nil_of_length_eq_add_one hn)
    obtain ⟨before, after, rfl⟩ := List.append_of_mem hb
    -- the binding that mentions no bound hole is the newest
    have hperm : (b :: (before ++ after)).Perm (before ++ b :: after) := List.perm_middle.symm
    have hkeys' := (hperm.map Prod.fst).nodup_iff.2 hkeys
    rw [List.map_cons, List.nodup_cons] at hkeys'
    have hsub : before ++ after ⊆ before ++ b :: after := fun _ hc => hperm.subset (List.mem_cons_of_mem _ hc)
    obtain ⟨rest, hrest, hlayered⟩ := ih (h.of_subset hsub) hkeys'.2 (by simp at hn ⊢; omega)
    refine ⟨b :: rest, (hrest.cons b).trans hperm, fun i hi c hc => ?_, fun i hi c hc heq => ?_, fun hocc => ?_,
      hlayered⟩
    · exact hfree i hi c (hsub (hrest.subset hc))
    · obtain rfl := mem_holes_hole.1 hi
      exact hkeys'.1 (heq ▸ List.mem_map_of_mem (hrest.subset hc))
    · exact hfree b.1 hocc b hb rfl

theorem Layered.nodup_keys (h : Layered bs) : (bs.map Prod.fst).Nodup := by
  induction bs with
  | nil => exact List.nodup_nil
  | cons b bs ih =>
    obtain ⟨-, hi, -, hbs⟩ := h
    refine List.nodup_cons.2 ⟨fun hmem => ?_, ih hbs⟩
    obtain ⟨c, hc, heq⟩ := List.mem_map.1 hmem
    exact hi b.1 (mem_holes_hole.2 rfl) c hc heq

end Ty

namespace Check

variable {st st' : CheckState} {a b : Ty} {span : Option Span}

theorem unify_found : Yields (unify a b span) st fun _ st' => Ty.unify st.bindings a b = (st'.bindings, none) := by
  unfold unify
  rw [yields_bind, yields_get, yields_bind, yields_set]
  cases Ty.unify st.bindings a b with
  | mk bs fault? =>
    cases fault? with
    | none => rfl
    | some fault => cases fault <;> exact trivial

theorem unify_ok (h : unify a b span st = .ok () st') : Ty.unify st.bindings a b = (st'.bindings, none) :=
  unify_found.of_ok h

theorem unify_yields (hst : Ty.Solved st.bindings) (ha : a.NoVars) (hb : b.NoVars) :
    Yields (unify a b span) st fun _ st' =>
      st.Reached st' ∧ ∀ θ, Ty.Solves θ st'.bindings → a.under θ = b.under θ := by
  refine unify_found.imp fun _ st' hunify => ?_
  have hsolved := hst.unify ha hb
  obtain ⟨new, hnew⟩ := Ty.suffix_unify st.bindings a b
  rw [hunify] at hsolved hnew
  exact ⟨⟨hsolved, new, hnew.symm⟩, fun θ hθ => (Ty.solves_of_unify hst.layered hunify hθ).2⟩

/-- Bindings without a cycle can be listed in the order in which unification adds them.  Where they are and a
step of unification succeeds, both types are the same in the state behind it, up to the order of the fields of
records.  The bindings still have no cycle, so that replacing holes one by one ends; those made before are
kept; and types that were the same, exactly or up to the order of fields, stay so. -/
theorem unify_equates {σ : Bindings} (hkeys : (σ.map Prod.fst).Nodup) (hacyclic : Ty.Acyclic σ) :
    (∃ bs : Bindings, bs.Perm σ ∧ Ty.Layered bs) ∧
      ∀ (st st' : CheckState) (a b : Ty) (span : Option Span), st.bindings.Perm σ → Ty.Layered st.bindings →
        unify a b span st = .ok () st' →
          (Ty.applyBindings st'.bindings a).Alike (Ty.applyBindings st'.bindings b) ∧
          (Ty.Layered st'.bindings ∧ (st'.bindings.map Prod.fst).Nodup ∧ Ty.Acyclic st'.bindings) ∧
          (∀ t, Ty.Zonks st'.bindings t (Ty.applyBindings st'.bindings t)) ∧
          σ ⊆ st'.bindings ∧
          ∀ t u,
            (Ty.applyBindings st.bindings t = Ty.applyBindings st.bindings u →
              Ty.applyBindings st'.bindings t = Ty.applyBindings st'.bindings u) ∧
            ((Ty.applyBindings st.bindings t).Alike (Ty.applyBindings st.bindings u) →
              (Ty.applyBindings st'.bindings t).Alike (Ty.applyBindings st'.bindings u)) := by
  refine ⟨hacyclic.exists_layered hkeys, fun st st' a b span hperm hst hunify => ?_⟩
  have hok := unify_ok hunify
  have hlayered : Ty.Layered st'.bindings := by
    have hlayered := hst.unify a b
    rwa [hok] at hlayered
  obtain ⟨new, hnew⟩ : st.bindings <:+ st'.bindings := by
    have hsuffix := Ty.suffix_unify st.bindings a b
    rwa [hok] at hsuffix
  refine ⟨Ty.unify_alike hst hok, ⟨hlayered, hlayered.nodup_keys, hlayered.acyclic⟩,
    hlayered.zonks_applyBindings, fun b hb => ?_, fun t u => ?_⟩
  · rw [← hnew]
    exact List.mem_append_right _ (hperm.mem_iff.2 hb)
  · -- the new bindings are applied to what the old ones made of the types
    rw [← hnew, Ty.applyBindings_append, Ty.applyBindings_append]
    exact ⟨congrArg _, fun h => h.applyBindings new⟩

/-- Two records with their fields in different orders; the bindings of holes 0 and 1 are followed, and hole 2
is filled. -/
theorem unify_equates_records :
    unify (.record [("x", .hole 2), ("y", .hole 0)]) (.record [("y", .hole 1), ("x", Ty.list (.hole 3))]) none
        ⟨[(1, Ty.int), (0, .hole 1)], 4, []⟩ = .ok () ⟨[(2, Ty.list (.hole 3)), (1, Ty.int), (0, .hole 1)], 4, []⟩ ∧
      (Ty.applyBindings [(2, Ty.list (.hole 3)), (1, Ty.int), (0, .hole 1)]
        (.record [("x", .hole 2), ("y", .hole 0)])).Alike
      (Ty.applyBindings [(2, Ty.list (.hole 3)), (1, Ty.int), (0, .hole 1)]
        (.record [("y", .hole 1), ("x", Ty.list (.hole 3))])) := by
  have hlayered : Ty.Layered [(1, Ty.int), (0, .hole 1)] := by
    simp [Ty.Layered, Ty.FreeOf]
  have hperm : List.Perm [(1, Ty.int), (0, .hole 1)] [(0, .hole 1), (1, Ty.int)] := .swap _ _ _
  have hsolve : Ty.unify [(1, Ty.int), (0, .hole 1)] (.record [("x", .hole 2), ("y", .hole 0)])
      (.record [("y", .hole 1), ("x", Ty.list (.hole 3))]) =
        ([(2, Ty.list (.hole 3)), (1, Ty.int), (0, .hole 1)], none) := by
    cbv
  have hunify : unify (.record [("x", .hole 2), ("y", .hole 0)]) (.record [("y", .hole 1), ("x", Ty.list (.hole 3))])
      none ⟨[(1, Ty.int), (0, .hole 1)], 4, []⟩ =
        .ok () ⟨[(2, Ty.list (.hole 3)), (1, Ty.int), (0, .hole 1)], 4, []⟩ := by
    simp only [unify, Bind.bind, EStateM.bind, get_eq, set_eq, hsolve]
    rfl
  exact ⟨hunify, ((unify_equates (by decide) (hlayered.acyclic.of_subset hperm.symm.subset)).2
    _ _ _ _ _ hperm hlayered hunify).1⟩

end Check

end VeriScript
