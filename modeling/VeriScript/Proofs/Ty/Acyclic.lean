import Mathlib.Logic.Relation
import Mathlib.Order.WellFounded
import VeriScript.Proofs.Ty.Unify

/-!
# Following bindings

Unification adds bindings one at a time, each to a type in which no bound hole occurs.  So bindings have no
cycles, and whoever follows them, from a hole to what it is bound to and from a type to its parts, comes to an
end.

* `Follows`, `Layered.wellFounded_follows` — the steps of following bindings, and that they end.
* `Acyclic`, `Layered.acyclic` — no hole occurs in what it stands for.
* `Zonks`, `Layered.zonks_iff` — replacing holes one by one comes to the same as applying all bindings at once.
* `Every` — a property of the holes and of the field names of a type, down to its smallest parts.
* `solve_keeps`, `unify_keeps` — what a step of solving equations keeps, solving them keeps, whether it
  succeeds or fails.
* `unify_eq_solve` — unification ends by itself and not for want of fuel.
-/

namespace VeriScript

namespace Ty

variable {bs done : Bindings} {a b t u : Ty} {i j : Nat}

/-! ## Following bindings -/

/-- From a hole to the type it is bound to, and from a type to its parts. -/
inductive Follows (bs : Bindings) : Ty → Ty → Prop
  | binding {i : Nat} {u : Ty} (bound : (i, u) ∈ bs) : Follows bs (.hole i) u
  | arg {name : String} {args : List Ty} {a : Ty} (mem : a ∈ args) : Follows bs (.con name args) a
  | field {fields : List (String × Ty)} {f : String × Ty} (mem : f ∈ fields) : Follows bs (.record fields) f.2

/-- Where no hole is bound, following bindings visits the parts of the type only. -/
theorem acc_follows_of_freeOf (h : FreeOf bs t) : Acc (fun u t => Follows bs t u) t := by
  induction t using induct with
  | con name args ih =>
    refine ⟨_, fun u hu => ?_⟩
    cases hu with
    | arg hmem => exact ih u hmem fun i hi => h i (mem_holes_con.2 ⟨u, hmem, hi⟩)
  | var name => exact ⟨_, fun u hu => nomatch hu⟩
  | hole id =>
    refine ⟨_, fun u hu => ?_⟩
    cases hu with
    | binding hbound => exact absurd rfl (h id (mem_holes_hole.2 rfl) _ hbound)
  | record fields ih =>
    refine ⟨_, fun u hu => ?_⟩
    cases hu with
    | field hmem => exact ih _ hmem fun i hi => h i (mem_holes_record.2 ⟨_, hmem, hi⟩)

theorem Layered.acc_follows (h : Layered bs) (t : Ty) : Acc (fun u t => Follows bs t u) t := by
  induction bs generalizing t with
  | nil => exact acc_follows_of_freeOf fun _ _ => nofun
  | cons b bs ih =>
    obtain ⟨i, u⟩ := b
    obtain ⟨hu, -, hocc, hbs⟩ := h
    -- the newest binding leads to a type without bound holes
    have hnewest : Acc (fun v t => Follows ((i, u) :: bs) t v) u := by
      refine acc_follows_of_freeOf fun j hj b hb => ?_
      obtain rfl | hb := List.mem_cons.1 hb
      · rintro rfl
        exact hocc hj
      · exact hu j hj b hb
    induction ih hbs t with
    | intro t _ iht =>
      refine ⟨_, fun v hv => ?_⟩
      cases hv with
      | binding hbound =>
        obtain heq | hbound := List.mem_cons.1 hbound
        · cases heq
          exact hnewest
        · exact iht v (.binding hbound)
      | arg hmem => exact iht v (.arg hmem)
      | field hmem => exact iht _ (.field hmem)

theorem Layered.wellFounded_follows (h : Layered bs) : WellFounded fun u t => Follows bs t u :=
  ⟨h.acc_follows⟩

/-! ## Cycles -/

/-- The hole `j` occurs in the type that the hole `i` is bound to. -/
def Mentions (bs : Bindings) (i j : Nat) : Prop :=
  ∃ u, (i, u) ∈ bs ∧ j ∈ u.holes

/-- No hole occurs in what it stands for, however far the bindings are followed. -/
def Acyclic (bs : Bindings) : Prop :=
  ∀ i, ¬ Relation.TransGen (Mentions bs) i i

theorem follows_of_mem_holes (h : j ∈ t.holes) : Relation.ReflTransGen (Follows bs) t (.hole j) := by
  induction t using induct with
  | con name args ih =>
    obtain ⟨a, ha, hj⟩ := mem_holes_con.1 h
    exact .head (.arg ha) (ih a ha hj)
  | var name => exact absurd h mem_holes_var
  | hole id =>
    obtain rfl := mem_holes_hole.1 h
    exact .refl
  | record fields ih =>
    obtain ⟨f, hf, hj⟩ := mem_holes_record.1 h
    exact .head (.field hf) (ih f hf hj)

theorem follows_of_mentions (h : Mentions bs i j) : Relation.TransGen (Follows bs) (.hole i) (.hole j) := by
  obtain ⟨u, hu, hj⟩ := h
  exact .head' (.binding hu) (follows_of_mem_holes hj)

theorem Layered.acyclic (h : Layered bs) : Acyclic bs := by
  intro i hcycle
  have hfollows : Relation.TransGen (Follows bs) (.hole i) (.hole i) :=
    hcycle.lift' Ty.hole fun _ _ => follows_of_mentions
  have hends := h.wellFounded_follows.transGen
  exact hends.irrefl.irrefl _ (Relation.transGen_swap.2 hfollows)

theorem Layered.of_suffix (h : Layered bs) (hsuffix : done <:+ bs) : Layered done := by
  induction bs with
  | nil =>
    obtain rfl := List.suffix_nil.1 hsuffix
    exact h
  | cons b bs ih =>
    obtain rfl | hsuffix := List.suffix_cons_iff.1 hsuffix
    · exact h
    · exact ih h.2.2.2 hsuffix

/-! ## Replacing holes one by one -/

/-- Every hole of a type is replaced by what it is bound to, and the holes of that again. -/
inductive Zonks (bs : Bindings) : Ty → Ty → Prop
  | con {name : String} {args : List Ty} {f : Ty → Ty} (parts : ∀ a ∈ args, Zonks bs a (f a)) :
    Zonks bs (.con name args) (.con name (args.map f))
  | var {name : String} : Zonks bs (.var name) (.var name)
  | bound {i : Nat} {u t : Ty} (mem : (i, u) ∈ bs) (next : Zonks bs u t) : Zonks bs (.hole i) t
  | free {i : Nat} (none : ∀ b ∈ bs, b.1 ≠ i) : Zonks bs (.hole i) (.hole i)
  | record {fields : List (String × Ty)} {f : Ty → Ty} (parts : ∀ e ∈ fields, Zonks bs e.2 (f e.2)) :
    Zonks bs (.record fields) (.record (fields.map fun e => (e.1, f e.2)))

theorem applyBindings_cons (b : Nat × Ty) (bs : Bindings) (t : Ty) :
    applyBindings (b :: bs) t = fill b.1 b.2 (applyBindings bs t) := rfl

@[simp] theorem applyBindings_con (bs : Bindings) (name : String) (args : List Ty) :
    applyBindings bs (.con name args) = .con name (args.map (applyBindings bs)) := by
  induction bs with
  | nil => exact congrArg (Ty.con name) (List.map_id _).symm
  | cons b bs ih =>
    rw [applyBindings_cons, ih]
    simp only [fill, fillList_eq, List.map_map]
    rfl

@[simp] theorem applyBindings_var (bs : Bindings) (name : String) : applyBindings bs (.var name) = .var name :=
  applyBindings_of_freeOf fun _ hi => absurd hi mem_holes_var

@[simp] theorem applyBindings_record (bs : Bindings) (fields : List (String × Ty)) :
    applyBindings bs (.record fields) = .record (fields.map fun f => (f.1, applyBindings bs f.2)) := by
  induction bs with
  | nil => exact congrArg Ty.record (List.map_id _).symm
  | cons b bs ih =>
    rw [applyBindings_cons, ih]
    simp only [fill, fillFields_eq, List.map_map]
    rfl

theorem Layered.zonks_applyBindings (h : Layered bs) (t : Ty) : Zonks bs t (applyBindings bs t) := by
  induction t using h.wellFounded_follows.induction with
  | h t ih =>
    cases t with
    | con name args =>
      rw [applyBindings_con]
      exact .con fun a ha => ih a (.arg ha)
    | var name =>
      rw [applyBindings_var]
      exact .var
    | hole i =>
      by_cases hfree : ∀ b ∈ bs, b.1 ≠ i
      · rw [applyBindings_of_freeOf fun j hj b hb => mem_holes_hole.1 hj ▸ hfree b hb]
        exact .free hfree
      · simp only [not_forall, not_not] at hfree
        obtain ⟨⟨_, u⟩, hmem, rfl⟩ := hfree
        rw [applyBindings_hole h hmem]
        exact .bound hmem (ih u (.binding hmem))
    | record fields =>
      rw [applyBindings_record]
      exact .record fun f hf => ih f.2 (.field hf)

theorem Layered.zonks_iff (h : Layered bs) : Zonks bs t u ↔ u = applyBindings bs t := by
  constructor
  · intro hzonks
    induction hzonks with
    | con _ ih => rw [applyBindings_con, List.map_congr_left ih]
    | var => rw [applyBindings_var]
    | bound mem _ ih => rw [applyBindings_hole h mem, ih]
    | free none => rw [applyBindings_of_freeOf fun j hj b hb => mem_holes_hole.1 hj ▸ none b hb]
    | record _ ih => rw [applyBindings_record, List.map_congr_left fun f hf => by rw [ih f hf]]
  · rintro rfl
    exact h.zonks_applyBindings t

/-! ## Properties of all parts of a type -/

/-- Holes have one property, the names of the fields of each record another, down to the smallest parts. -/
inductive Every (H : Nat → Prop) (R : List String → Prop) : Ty → Prop
  | con {name : String} {args : List Ty} (parts : ∀ a ∈ args, Every H R a) : Every H R (.con name args)
  | var {name : String} : Every H R (.var name)
  | hole {i : Nat} (holds : H i) : Every H R (.hole i)
  | record {fields : List (String × Ty)} (names : R (Table.names fields)) (parts : ∀ f ∈ fields, Every H R f.2) :
    Every H R (.record fields)

section
variable {H H' : Nat → Prop} {R : List String → Prop}

theorem Every.mem_holes (h : Every H R t) : ∀ i ∈ t.holes, H i := by
  induction h with
  | con _ ih =>
    intro i hi
    obtain ⟨a, ha, hi⟩ := mem_holes_con.1 hi
    exact ih a ha i hi
  | var => exact fun i hi => absurd hi mem_holes_var
  | hole holds => exact fun i hi => mem_holes_hole.1 hi ▸ holds
  | record _ _ ih =>
    intro i hi
    obtain ⟨f, hf, hi⟩ := mem_holes_record.1 hi
    exact ih f hf i hi

theorem Every.imp (h : Every H R t) (hH : ∀ i ∈ t.holes, H' i) : Every H' R t := by
  induction h with
  | con _ ih => exact .con fun a ha => ih a ha fun i hi => hH i (mem_holes_con.2 ⟨a, ha, hi⟩)
  | var => exact .var
  | hole _ => exact .hole (hH _ (mem_holes_hole.2 rfl))
  | record names _ ih => exact .record names fun f hf => ih f hf fun i hi => hH i (mem_holes_record.2 ⟨f, hf, hi⟩)

theorem every_con {name : String} {args : List Ty} : Every H R (.con name args) ↔ ∀ a ∈ args, Every H R a :=
  ⟨fun h => by cases h; assumption, .con⟩

theorem every_record {fields : List (String × Ty)} :
    Every H R (.record fields) ↔ R (Table.names fields) ∧ ∀ f ∈ fields, Every H R f.2 :=
  ⟨fun h => by cases h; exact ⟨‹_›, ‹_›⟩, fun h => .record h.1 h.2⟩

/-- Where no property is asked of records, the holes are all that counts. -/
theorem every_of_holes (hR : ∀ names, R names) (h : ∀ i ∈ t.holes, H i) : Every H R t := by
  induction t using induct with
  | con name args ih => exact .con fun a ha => ih a ha fun i hi => h i (mem_holes_con.2 ⟨a, ha, hi⟩)
  | var name => exact .var
  | hole id => exact .hole (h id (mem_holes_hole.2 rfl))
  | record fields ih =>
    exact .record (hR _) fun f hf => ih f hf fun i hi => h i (mem_holes_record.2 ⟨f, hf, hi⟩)

theorem names_map {f : Ty → Ty} (fields : List (String × Ty)) :
    Table.names (fields.map fun e => (e.1, f e.2)) = Table.names fields := by
  simp [Table.names]

theorem Every.fill (h : Every H R t) (hu : Every H R u) : Every H R (fill i u t) := by
  induction h with
  | con _ ih =>
    rw [Ty.fill, fillList_eq]
    refine .con fun a ha => ?_
    obtain ⟨b, hb, rfl⟩ := List.mem_map.1 ha
    exact ih b hb
  | var => exact .var
  | hole holds =>
    rw [Ty.fill]
    split
    · exact hu
    · exact .hole holds
  | record names _ ih =>
    rw [Ty.fill, fillFields_eq]
    refine .record (by rwa [names_map]) fun f hf => ?_
    obtain ⟨g, hg, rfl⟩ := List.mem_map.1 hf
    exact ih g hg

theorem Every.applyBindings (h : Every H R t) (hbs : ∀ b ∈ bs, Every H R b.2) : Every H R (applyBindings bs t) := by
  induction bs with
  | nil => exact h
  | cons b bs ih =>
    obtain ⟨hb, hbs⟩ := List.forall_mem_cons.1 hbs
    exact (ih hbs).fill hb

theorem Every.substVars {m : List (String × Ty)} (h : Every H R t) (hm : ∀ e ∈ m, Every H R e.2) :
    Every H R (substVars m t) := by
  induction h with
  | con _ ih =>
    rw [Ty.substVars, substVarsList_eq]
    refine .con fun a ha => ?_
    obtain ⟨b, hb, rfl⟩ := List.mem_map.1 ha
    exact ih b hb
  | @var name =>
    rw [Ty.substVars]
    cases hget : Table.get? m name with
    | none => exact .var
    | some u => exact hm _ (Table.mem_of_get? hget)
  | hole holds => exact .hole holds
  | record names _ ih =>
    rw [Ty.substVars, substVarsFields_eq]
    refine .record (by rwa [names_map]) fun f hf => ?_
    obtain ⟨g, hg, rfl⟩ := List.mem_map.1 hf
    exact ih g hg

/-- The equations that two types come down to are between parts of them. -/
theorem split_every (ha : Every H R a) (hb : Every H R b) : ∀ e ∈ split a b, Every H R e.1 ∧ Every H R e.2 := by
  intro e he
  refine split_induction (Q := fun a b e => Every H R a → Every H R b → Every H R e.1 ∧ Every H R e.2) ?whole ?con
    ?record he ha hb
  case whole => exact fun _ ha hb => ⟨ha, hb⟩
  case con =>
    intro _ as bs p e _ hp ih ha hb
    exact ih (every_con.1 ha _ (List.of_mem_zip hp).1) (every_con.1 hb _ (List.of_mem_zip hp).2)
  case record =>
    intro fs gs f u e hf hu ih ha hb
    exact ih ((every_record.1 ha).2 f hf) ((every_record.1 hb).2 _ (Table.mem_of_get? hu))

end

/-! ## The run of solving equations -/

section
variable {eqs : List (Ty × Ty)} {H : Nat → Prop} {R : List String → Prop}

theorem solve_keeps {P : List (Ty × Ty) → Bindings → Prop}
    (step : ∀ {e eqs done i t}, P (e :: eqs) done → Asks i t e → i ∉ t.holes →
      P (splitFilled i t eqs) ((i, t) :: done))
    (fuel : Nat) (h : P eqs done) : ∃ rest, P rest (solve fuel eqs done).1 ∧ done <:+ (solve fuel eqs done).1 := by
  induction fuel generalizing eqs done with
  | zero =>
    refine ⟨eqs, ?_⟩
    cases eqs <;> exact ⟨h, List.suffix_refl _⟩
  | succ fuel ih =>
    cases eqs with
    | nil => exact ⟨[], h, List.suffix_refl _⟩
    | cons e eqs =>
      obtain ⟨-, hstop⟩ | ⟨i, t, hasks, hsolve⟩ := solve_cons_cases e eqs done
      · rw [hstop]
        exact ⟨_, h, List.suffix_refl _⟩
      · rw [hsolve]
        split
        · exact ⟨_, h, List.suffix_refl _⟩
        · rename_i hocc
          obtain ⟨rest, hrest, hsuffix⟩ := ih (step h hasks hocc)
          exact ⟨rest, hrest, (List.suffix_cons _ _).trans hsuffix⟩

/-- Bindings made so far and the sides of the equations that are left: no hole of an equation is bound. -/
structure Solving (H : Nat → Prop) (R : List String → Prop) (eqs : List (Ty × Ty)) (done : Bindings) : Prop where
  layered : Layered done
  bound : ∀ b ∈ done, H b.1 ∧ Every H R b.2
  sides : ∀ e ∈ eqs, (FreeOf done e.1 ∧ FreeOf done e.2) ∧ Every H R e.1 ∧ Every H R e.2

variable {e : Ty × Ty} {holes : List Nat}

theorem Solving.step (h : Solving H R (e :: eqs) done) (hasks : Asks i t e) (hocc : i ∉ t.holes) :
    Solving H R (splitFilled i t eqs) ((i, t) :: done) := by
  obtain ⟨he, heqs⟩ := List.forall_mem_cons.1 h.sides
  have ⟨⟨hi, ht⟩, hHi, hHt⟩ : (FreeOf done (.hole i) ∧ FreeOf done t) ∧ H i ∧ Every H R t := by
    obtain rfl | rfl := hasks
    · exact ⟨he.1, he.2.1.mem_holes i (mem_holes_hole.2 rfl), he.2.2⟩
    · exact ⟨he.1.symm, he.2.2.mem_holes i (mem_holes_hole.2 rfl), he.2.1⟩
  refine ⟨⟨ht, hi, hocc, h.layered⟩, List.forall_mem_cons.2 ⟨⟨hHi, hHt⟩, h.bound⟩, fun e' he' => ?_⟩
  obtain ⟨e, he, he'⟩ := List.mem_flatMap.1 he'
  obtain ⟨⟨hfree1, hfree2⟩, hevery1, hevery2⟩ := heqs e he
  obtain ⟨hwithin1, hwithin2⟩ := split_within _ _ e' he'
  refine ⟨⟨fun j hj => ?_, fun j hj => ?_⟩, split_every (hevery1.fill hHt) (hevery2.fill hHt) e' he'⟩
  · exact hfree1.fill ht hocc j (hwithin1.1 j hj)
  · exact hfree2.fill ht hocc j (hwithin2.1 j hj)

theorem suffix_unify (bs : Bindings) (a b : Ty) : bs <:+ (unify bs a b).1 := by
  obtain ⟨_, -, hsuffix⟩ := solve_keeps (P := fun _ _ => True) (fun _ _ _ => trivial) _ trivial
  exact hsuffix

theorem unify_keeps (hbs : Layered bs) (hbound : ∀ b ∈ bs, H b.1 ∧ Every H R b.2) (ha : Every H R a)
    (hb : Every H R b) :
    Layered (unify bs a b).1 ∧ ∀ b' ∈ (unify bs a b).1, H b'.1 ∧ Every H R b'.2 := by
  have hstart : Solving H R (split (applyBindings bs a) (applyBindings bs b)) bs := by
    refine ⟨hbs, hbound, fun e he => ⟨?_, ?_⟩⟩
    · obtain ⟨h1, h2⟩ := split_within _ _ e he
      exact ⟨fun i hi => freeOf_applyBindings hbs a i (h1.1 i hi), fun i hi => freeOf_applyBindings hbs b i (h2.1 i hi)⟩
    · have hsolved := fun b hb => (hbound b hb).2
      exact split_every (ha.applyBindings hsolved) (hb.applyBindings hsolved) e he
  obtain ⟨_, hend, -⟩ := solve_keeps Solving.step _ hstart
  exact ⟨hend.layered, hend.bound⟩

/-! ## Enough fuel -/

/-- Every hole of the equations is in the list. -/
def Covers (holes : List Nat) (eqs : List (Ty × Ty)) : Prop :=
  ∀ e ∈ eqs, ∀ i, i ∈ e.1.holes ∨ i ∈ e.2.holes → i ∈ holes

theorem covers_split : Covers (a.holes ++ b.holes) (split a b) := by
  intro e he i hi
  obtain ⟨h1, h2⟩ := split_within _ _ e he
  exact List.mem_append.2 (hi.imp (h1.1 i) (h2.1 i))

theorem Asks.covered (h : Asks i t e) (hcovers : Covers holes (e :: eqs)) : i ∈ holes ∧ ∀ j ∈ t.holes, j ∈ holes := by
  have he := hcovers e List.mem_cons_self
  obtain rfl | rfl := h
  · exact ⟨he i (.inl (mem_holes_hole.2 rfl)), fun j hj => he j (.inr hj)⟩
  · exact ⟨he i (.inr (mem_holes_hole.2 rfl)), fun j hj => he j (.inl hj)⟩

/-- Filling a hole does away with it. -/
theorem Covers.splitFilled (h : Covers holes (e :: eqs)) (hasks : Asks i t e)
    (hocc : i ∉ t.holes) : Covers (holes.erase i) (splitFilled i t eqs) := by
  obtain ⟨-, ht⟩ := hasks.covered h
  have hfill : ∀ {s : Ty} {j : Nat}, (∀ k ∈ s.holes, k ∈ holes) → j ∈ (Ty.fill i t s).holes → j ∈ holes.erase i := by
    intro s j hs hj
    obtain ⟨hj, hne⟩ | hj := mem_holes_fill hj
    · exact (List.mem_erase_of_ne hne).2 (hs j hj)
    · have hne : j ≠ i := fun h => hocc (h ▸ hj)
      exact (List.mem_erase_of_ne hne).2 (ht j hj)
  intro e' he' j hj
  obtain ⟨e0, he0, he'⟩ := List.mem_flatMap.1 he'
  have hcovered := h e0 (List.mem_cons_of_mem _ he0)
  obtain ⟨h1, h2⟩ := split_within _ _ e' he'
  obtain hj | hj := hj
  · exact hfill (fun k hk => hcovered k (.inl hk)) (h1.1 j hj)
  · exact hfill (fun k hk => hcovered k (.inr hk)) (h2.1 j hj)

/-- Every step does away with a hole, so that fuel for the holes of the equations is as good as any more. -/
theorem solve_eq_of_covers {fuel : Nat} (h : Covers holes eqs) (hfuel : holes.length ≤ fuel)
    (more : Nat) : solve (fuel + more) eqs done = solve fuel eqs done := by
  induction fuel generalizing holes eqs done with
  | zero =>
    cases eqs with
    | nil => cases more <;> rfl
    | cons e eqs =>
      obtain ⟨-, hstop⟩ | ⟨i, t, hasks, -⟩ := solve_cons_cases e eqs done
      · rw [hstop, hstop]
      · obtain ⟨hi, -⟩ := hasks.covered h
        obtain rfl := List.eq_nil_of_length_eq_zero (Nat.le_zero.1 hfuel)
        cases hi
  | succ fuel ih =>
    cases eqs with
    | nil => cases more <;> rfl
    | cons e eqs =>
      obtain ⟨-, hstop⟩ | ⟨i, t, hasks, hsolve⟩ := solve_cons_cases e eqs done
      · rw [hstop, hstop]
      · rw [Nat.succ_add, hsolve, hsolve]
        split
        · rfl
        · rename_i hocc
          obtain ⟨hi, -⟩ := hasks.covered h
          refine ih (h.splitFilled hasks hocc) ?_
          have hlength := List.length_erase_of_mem hi
          omega

theorem unify_eq_solve (bs : Bindings) (a b : Ty) (more : Nat) :
    unify bs a b = solve ((applyBindings bs a).holes.length + (applyBindings bs b).holes.length + more)
      (split (applyBindings bs a) (applyBindings bs b)) bs := by
  exact (solve_eq_of_covers covers_split (by simp) more).symm

end

end Ty

end VeriScript
