import VeriScript.Proofs.Ty.Acyclic
import VeriScript.Proofs.Ty.Subst

/-!
# Unification asks for no more than it has to

If some monotypes for the holes make two types equal, unification succeeds and its bindings hold of these
monotypes.

* `Distinct.eq_hole_of_mem_holes` — a hole that occurs in a type stands for a part of what the type stands for, so
  no monotypes solve an equation between a hole and a larger type in which it occurs.
* `split_complete` — what makes two types equal makes the equations hold that they come down to.
* `unify_complete` — the solutions of the old bindings that make the types equal are solutions of the new ones.
-/

namespace VeriScript

namespace Ty

variable {θ : Nat → Mono} {ρ : String → Mono} {bs done : Bindings} {a b t u : Ty} {i : Nat} {e : Ty × Ty}
  {eqs : List (Ty × Ty)}

/-- Each record has each of its fields once. -/
def Distinct (t : Ty) : Prop :=
  t.Every (fun _ => True) List.Nodup

theorem Every.distinct {H : Nat → Prop} (h : t.Every H List.Nodup) : t.Distinct :=
  h.imp fun _ _ => trivial

/-- What a type stands for has what its arguments and fields stand for as parts. -/
theorem part_con {name : String} {args : List Ty} (h : a ∈ args) :
    Mono.Part (a.denote θ ρ) ((Ty.con name args).denote θ ρ) := by
  rw [denote, denoteList_eq]
  exact .arg (List.mem_map.2 ⟨a, h, rfl⟩)

theorem part_record {fields : List (String × Ty)} (hnames : (Table.names fields).Nodup) {f : String × Ty}
    (h : f ∈ fields) : Mono.Part (f.2.denote θ ρ) ((Ty.record fields).denote θ ρ) := by
  rw [denote, denoteFields_eq]
  refine Mono.Part.field (show (Table.get? fields f.1).map (denote θ ρ) = _ from ?_)
  rw [Table.get?_of_mem hnames h, Option.map_some]

/-- A hole that occurs in a type stands for a part of what the type stands for. -/
theorem Distinct.part_of_mem_holes (h : t.Distinct) (hi : i ∈ t.holes) :
    Relation.ReflTransGen Mono.Part (θ i) (t.denote θ ρ) := by
  induction h with
  | con _ ih =>
    obtain ⟨a, ha, hi⟩ := mem_holes_con.1 hi
    exact (ih a ha hi).tail (part_con ha)
  | var => exact absurd hi mem_holes_var
  | hole _ =>
    obtain rfl := mem_holes_hole.1 hi
    exact .refl
  | record names _ ih =>
    obtain ⟨f, hf, hi⟩ := mem_holes_record.1 hi
    exact (ih f hf hi).tail (part_record names hf)

theorem Distinct.eq_hole_of_mem_holes (h : t.Distinct) (hi : i ∈ t.holes) (heq : θ i = t.denote θ ρ) :
    t = .hole i := by
  have hself : ∀ {u : Ty}, u.Distinct → i ∈ u.holes → ¬ Mono.Part (u.denote θ ρ) (t.denote θ ρ) := by
    intro u hu hi hpart
    have hcycle := Relation.TransGen.tail' (hu.part_of_mem_holes hi) hpart
    rw [heq] at hcycle
    exact Mono.not_part_self _ hcycle
  cases h with
  | con parts =>
    obtain ⟨a, ha, hi⟩ := mem_holes_con.1 hi
    exact absurd (part_con ha) (hself (parts a ha) hi)
  | var => exact absurd hi mem_holes_var
  | hole _ => rw [mem_holes_hole.1 hi]
  | record names parts =>
    obtain ⟨f, hf, hi⟩ := mem_holes_record.1 hi
    exact absurd (part_record names hf) (hself (parts f hf) hi)

/-! ## Taking types apart -/

/-- Both sides of an equation hold under the same monotypes. -/
def Holds (θ : Nat → Mono) (ρ : String → Mono) (e : Ty × Ty) : Prop :=
  e.1.denote θ ρ = e.2.denote θ ρ

theorem split_complete (ha : a.Distinct) (hb : b.Distinct) (h : a.denote θ ρ = b.denote θ ρ) :
    ∀ e ∈ split a b, Holds θ ρ e := by
  intro e he
  refine split_induction (Q := fun a b e => a.Distinct → b.Distinct → a.denote θ ρ = b.denote θ ρ → Holds θ ρ e)
    ?whole ?con ?record he ha hb h
  case whole => exact fun _ _ _ h => h
  case con =>
    intro n as bs p e hlength hp ih ha hb h
    obtain ⟨hpa, hpb⟩ := List.of_mem_zip hp
    simp only [denote, denoteList_eq, Mono.con.injEq, true_and] at h
    exact ih (every_con.1 ha _ hpa) (every_con.1 hb _ hpb) ((map_eq_map_iff_zip hlength).1 h p hp)
  case record =>
    intro fs gs f u e hf hu ih ha hb h
    obtain ⟨hnames, hfs⟩ := every_record.1 ha
    refine ih (hfs f hf) ((every_record.1 hb).2 _ (Table.mem_of_get? hu)) ?_
    simp only [denote, denoteFields_eq, Mono.record.injEq] at h
    have hfield := congrFun h f.1
    rwa [Table.get?_of_mem hnames hf, hu, Option.map_some, Option.map_some, Option.some.injEq] at hfield

/-- The equation is not taken apart any further. -/
def Whole (e : Ty × Ty) : Prop :=
  split e.1 e.2 = [e]

/-- The parts of types come in equations of their own, so that an equation is never taken apart into itself. -/
theorem split_whole (a b : Ty) : ∀ e ∈ split a b, Whole e ∧ sizeOf e.1 ≤ sizeOf a := by
  intro e he
  refine split_induction (Q := fun a _ e => Whole e ∧ sizeOf e.1 ≤ sizeOf a) ?whole ?con ?record he
  case whole => exact fun hsplit => ⟨hsplit, Nat.le_refl _⟩
  case con =>
    rintro n as bs p e - hp ⟨hwhole, hsize⟩
    have hlt := List.sizeOf_lt_of_mem (List.of_mem_zip hp).1
    exact ⟨hwhole, by simp only [con.sizeOf_spec]; omega⟩
  case record =>
    rintro fs gs ⟨k, t⟩ u e hf - ⟨hwhole, hsize⟩
    have hlt := List.sizeOf_lt_of_mem hf
    refine ⟨hwhole, ?_⟩
    simp only [Prod.mk.sizeOf_spec, record.sizeOf_spec] at hlt hsize ⊢
    omega

theorem sameNames_of_denote_eq {fs gs : List (String × Ty)}
    (h : (Ty.record fs).denote θ ρ = (Ty.record gs).denote θ ρ) : Table.sameNames fs gs := by
  simp only [denote, denoteFields_eq, Mono.record.injEq] at h
  refine Table.sameNames_iff.2 fun name => ?_
  have hname := congrArg Option.isSome (congrFun h name)
  rwa [Option.isSome_map, Option.isSome_map] at hname

theorem Whole.ne_hole (h : Whole e) (hasks : Asks i t e) : t ≠ .hole i := by
  rintro rfl
  obtain rfl | rfl := hasks <;> simp [Whole, split] at h

/-- An equation that holds and is not taken apart any further asks for a hole to be filled. -/
theorem Whole.asks (h : Whole e) (heq : e.1.under θ = e.2.under θ) : ∃ i t, Asks i t e := by
  obtain ⟨a, b⟩ := e
  simp only [under] at heq
  cases a with
  | hole i => exact ⟨i, b, .inl rfl⟩
  | var x =>
    cases b with
    | hole i => exact ⟨i, _, .inr rfl⟩
    | var y =>
      -- variables stand for themselves, so that these are one variable
      obtain rfl : x = y := Mono.var.inj heq
      simp [Whole, split] at h
    | con m bs => simp [denote] at heq
    | record gs => simp [denote] at heq
  | con n as =>
    cases b with
    | hole i => exact ⟨i, _, .inr rfl⟩
    | var y => simp [denote] at heq
    | con m bs =>
      simp only [denote, denoteList_eq, Mono.con.injEq] at heq
      have hsame : n = m ∧ as.length = bs.length := ⟨heq.1, by simpa using congrArg List.length heq.2⟩
      have hself : (Ty.con n as, Ty.con m bs) ∈ splitList as bs := by
        rw [Whole, split, if_pos hsame] at h
        exact h ▸ List.mem_singleton.2 rfl
      obtain ⟨p, hp, he⟩ := mem_splitList.1 hself
      have hsize := (split_whole _ _ _ he).2
      have hlt := List.sizeOf_lt_of_mem (List.of_mem_zip hp).1
      simp only [con.sizeOf_spec] at hsize
      omega
    | record gs => simp [denote] at heq
  | record fs =>
    cases b with
    | hole i => exact ⟨i, _, .inr rfl⟩
    | var y => simp [denote] at heq
    | con m bs => simp [denote] at heq
    | record gs =>
      have hself : (Ty.record fs, Ty.record gs) ∈ (Table.sortByName (splitFields fs gs)).flatMap (·.2) := by
        rw [Whole, split, if_pos (sameNames_of_denote_eq heq)] at h
        exact h ▸ List.mem_singleton.2 rfl
      rw [splitFields_eq, mem_flatMap_sortByName] at hself
      obtain ⟨f, hf, he⟩ := hself
      unfold splitField at he
      split at he
      · have hsize := (split_whole _ _ _ he).2
        have hlt := List.sizeOf_lt_of_mem hf
        obtain ⟨k, u⟩ := f
        simp only [Prod.mk.sizeOf_spec, record.sizeOf_spec] at hlt hsize
        omega
      · cases he

/-! ## Solving equations -/

/-- An equation that is left to solve and holds. -/
structure Solvable (θ : Nat → Mono) (e : Ty × Ty) : Prop where
  whole : Whole e
  left : e.1.Distinct
  right : e.2.Distinct
  holds : e.1.under θ = e.2.under θ

theorem solvable_of_mem_split (ha : a.Distinct) (hb : b.Distinct) (h : a.under θ = b.under θ) (he : e ∈ split a b) :
    Solvable θ e := by
  obtain ⟨hleft, hright⟩ := split_every ha hb e he
  exact ⟨(split_whole a b e he).1, hleft, hright, split_complete ha hb h e he⟩

theorem Solvable.of_asks (h : Solvable θ e) (hasks : Asks i t e) : t.Distinct ∧ θ i = t.under θ := by
  obtain rfl | rfl := hasks
  · exact ⟨h.right, h.holds⟩
  · exact ⟨h.left, h.holds.symm⟩

/-- Each step binds a hole to the type that the equation gives it, so what solves the equations solves the
bindings. -/
theorem solve_complete {holes : List Nat} {fuel : Nat} (hcovers : Covers holes eqs) (hfuel : holes.length ≤ fuel)
    (heqs : ∀ e ∈ eqs, Solvable θ e) (hdone : Solves θ done) :
    ∃ bs, solve fuel eqs done = (bs, none) ∧ Solves θ bs := by
  induction fuel generalizing holes eqs done with
  | zero =>
    cases eqs with
    | nil => exact ⟨done, rfl, hdone⟩
    | cons e eqs =>
      obtain ⟨he, -⟩ := List.forall_mem_cons.1 heqs
      obtain ⟨i, t, hasks⟩ := he.whole.asks he.holds
      obtain ⟨hi, -⟩ := hasks.covered hcovers
      obtain rfl := List.eq_nil_of_length_eq_zero (Nat.le_zero.1 hfuel)
      cases hi
  | succ fuel ih =>
    cases eqs with
    | nil => exact ⟨done, rfl, hdone⟩
    | cons e eqs =>
      obtain ⟨he, heqs⟩ := List.forall_mem_cons.1 heqs
      obtain ⟨hnone, -⟩ | ⟨i, t, hasks, hsolve⟩ := solve_cons_cases e eqs done
      · obtain ⟨i, t, hasks⟩ := he.whole.asks he.holds
        exact absurd hasks (hnone i t)
      obtain ⟨ht, hbound⟩ := he.of_asks hasks
      have hocc : i ∉ t.holes := fun hi =>
        he.whole.ne_hole hasks (ht.eq_hole_of_mem_holes hi hbound)
      rw [hsolve, if_neg hocc]
      obtain ⟨hi, -⟩ := hasks.covered hcovers
      have hlength := List.length_erase_of_mem hi
      refine ih (hcovers.splitFilled hasks hocc) (by omega) (fun e' he' => ?_)
        (List.forall_mem_cons.2 ⟨hbound, hdone⟩)
      obtain ⟨e0, he0, he'⟩ := List.mem_flatMap.1 he'
      have h0 := heqs e0 he0
      refine solvable_of_mem_split (Every.fill h0.left ht) (Every.fill h0.right ht) ?_ he'
      rw [under, denote_fill_self hbound, under, denote_fill_self hbound]
      exact h0.holds

/-- Monotypes that solve the bindings and make two types equal: unification succeeds, and they solve its
bindings too. -/
theorem unify_complete (hbs : ∀ b ∈ bs, b.2.Distinct) (ha : a.Distinct) (hb : b.Distinct) (hθ : Solves θ bs)
    (h : a.under θ = b.under θ) : ∃ bs', unify bs a b = (bs', none) ∧ Solves θ bs' := by
  have happlied : (applyBindings bs a).under θ = (applyBindings bs b).under θ := by
    rw [under_applyBindings hθ, under_applyBindings hθ]
    exact h
  refine solve_complete covers_split (by simp) (fun e he => ?_) hθ
  exact solvable_of_mem_split (Every.applyBindings ha hbs) (Every.applyBindings hb hbs) happlied he

end Ty

end VeriScript
