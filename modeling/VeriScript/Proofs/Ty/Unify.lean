import VeriScript.Proofs.Ty.Mono

/-!
# The steps of unification

* `Solves` — monotypes for holes that agree with bindings.
* `Layered` — bindings that were made by unification: no binding mentions a hole that is bound before it.
* `Solved` — the same of bindings without variables.
* `solution` — bindings that are solved have solutions, with any monotypes for the holes that are not bound.
* `split_induction`, `solve_cons_cases` — the steps in which two types are taken apart and equations are solved.
-/

namespace VeriScript

namespace Ty

variable {θ : Nat → Mono} {ρ : String → Mono} {bs done : Bindings} {a b t u : Ty} {i : Nat}

def NoVars (t : Ty) : Prop :=
  ∀ x, x ∉ t.varNames

/-- The monotype that a type stands for; variables stand for themselves. -/
def under (θ : Nat → Mono) (t : Ty) : Mono :=
  t.denote θ .var

theorem NoVars.denote_eq (h : t.NoVars) : t.denote θ ρ = t.under θ :=
  denote_congr (fun _ _ => rfl) fun x hx => absurd hx (h x)

theorem NoVars.fill (ht : t.NoVars) (hu : u.NoVars) : (fill i u t).NoVars :=
  fun x hx => (mem_varNames_fill hx).elim (ht x) (hu x)

/-! ## Bindings -/

/-- No hole of the type is bound. -/
def FreeOf (bs : Bindings) (t : Ty) : Prop :=
  ∀ i ∈ t.holes, ∀ b ∈ bs, b.1 ≠ i

/-- Every binding holds of the monotypes of the holes. -/
def Solves (θ : Nat → Mono) (bs : Bindings) : Prop :=
  ∀ b ∈ bs, θ b.1 = b.2.under θ

/-- Bindings as unification makes them. -/
def Layered : Bindings → Prop
  | [] => True
  | (i, u) :: bs => FreeOf bs u ∧ FreeOf bs (.hole i) ∧ i ∉ u.holes ∧ Layered bs

/-- Bindings as unification makes them from types without variables. -/
def Solved : Bindings → Prop
  | [] => True
  | (i, u) :: bs => FreeOf bs u ∧ FreeOf bs (.hole i) ∧ i ∉ u.holes ∧ u.NoVars ∧ Solved bs

theorem Solves.of_append {new : Bindings} (h : Solves θ (new ++ bs)) : Solves θ bs :=
  fun b hb => h b (List.mem_append_right _ hb)

theorem Solved.layered (h : Solved bs) : Layered bs := by
  induction bs with
  | nil => trivial
  | cons b bs ih =>
    obtain ⟨hu, hi, hocc, -, hbs⟩ := h
    exact ⟨hu, hi, hocc, ih hbs⟩

theorem Layered.solved (h : Layered bs) (hnoVars : ∀ b ∈ bs, b.2.NoVars) : Solved bs := by
  induction bs with
  | nil => trivial
  | cons b bs ih =>
    obtain ⟨hu, hi, hocc, hbs⟩ := h
    obtain ⟨hb, hnoVars⟩ := List.forall_mem_cons.1 hnoVars
    exact ⟨hu, hi, hocc, hb, ih hbs hnoVars⟩

theorem Solved.noVars (h : Solved bs) : ∀ b ∈ bs, b.2.NoVars := by
  induction bs with
  | nil => nofun
  | cons b bs ih =>
    obtain ⟨-, -, -, hu, hbs⟩ := h
    intro b' hb'
    obtain rfl | hb' := List.mem_cons.1 hb'
    · exact hu
    · exact ih hbs b' hb'

theorem applyBindings_of_freeOf (h : FreeOf bs t) : applyBindings bs t = t := by
  induction bs with
  | nil => rfl
  | cons b bs ih =>
    have hbs : FreeOf bs t := fun i hi b hb => h i hi b (List.mem_cons_of_mem _ hb)
    show fill b.1 b.2 (applyBindings bs t) = t
    rw [ih hbs]
    exact fill_of_not_mem fun hi => h b.1 hi b List.mem_cons_self rfl

theorem freeOf_applyBindings (h : Layered bs) (t : Ty) : FreeOf bs (applyBindings bs t) := by
  induction bs with
  | nil => nofun
  | cons b bs ih =>
    obtain ⟨hu, -, hocc, hbs⟩ := h
    intro j hj b' hb'
    obtain ⟨hj, hne⟩ | hj := mem_holes_fill hj
    · obtain rfl | hb' := List.mem_cons.1 hb'
      · exact Ne.symm hne
      · exact ih hbs j hj b' hb'
    · obtain rfl | hb' := List.mem_cons.1 hb'
      · rintro rfl
        exact hocc hj
      · exact hu j hj b' hb'

theorem mem_varNames_applyBindings (hbs : ∀ b ∈ bs, b.2.NoVars) {x : String}
    (h : x ∈ (applyBindings bs t).varNames) : x ∈ t.varNames := by
  induction bs with
  | nil => exact h
  | cons b bs ih =>
    obtain ⟨hb, hbs⟩ := List.forall_mem_cons.1 hbs
    exact (mem_varNames_fill h).elim (ih hbs) fun hx => absurd hx (hb x)

theorem NoVars.applyBindings (h : t.NoVars) (hbs : ∀ b ∈ bs, b.2.NoVars) : (applyBindings bs t).NoVars :=
  fun x hx => h x (mem_varNames_applyBindings hbs hx)

/-- Filling a hole with a type that it equals changes no meaning. -/
theorem denote_fill_self (h : θ i = u.denote θ ρ) : (fill i u t).denote θ ρ = t.denote θ ρ := by
  rw [denote_fill]
  refine denote_congr (fun j _ => ?_) fun _ _ => rfl
  by_cases hj : j = i
  · rw [if_pos hj, hj, h]
  · rw [if_neg hj]

theorem denote_fill_of_eq (hu : u.NoVars) (h : θ i = u.under θ) : (fill i u t).denote θ ρ = t.denote θ ρ :=
  denote_fill_self (h.trans hu.denote_eq.symm)

/-- Applying bindings that hold changes no meaning; their variables stand for themselves. -/
theorem under_applyBindings (h : Solves θ bs) : (applyBindings bs t).under θ = t.under θ := by
  induction bs with
  | nil => rfl
  | cons b bs ih =>
    obtain ⟨hθ, h⟩ := List.forall_mem_cons.1 h
    exact (denote_fill_self hθ).trans (ih h)

theorem denote_applyBindings (hbs : ∀ b ∈ bs, b.2.NoVars) (h : Solves θ bs) :
    (applyBindings bs t).denote θ ρ = t.denote θ ρ := by
  induction bs with
  | nil => rfl
  | cons b bs ih =>
    obtain ⟨hb, hbs⟩ := List.forall_mem_cons.1 hbs
    obtain ⟨hθ, h⟩ := List.forall_mem_cons.1 h
    exact (denote_fill_of_eq hb hθ).trans (ih hbs h)

/-! ## Solutions -/

/-- The solution in which the holes that are not bound have given monotypes. -/
def solution (bs : Bindings) (θ : Nat → Mono) : Nat → Mono :=
  fun i => (applyBindings bs (.hole i)).under θ

theorem denote_solution (hbs : ∀ b ∈ bs, b.2.NoVars) :
    t.denote (solution bs θ) ρ = (applyBindings bs t).denote θ ρ := by
  induction bs generalizing θ with
  | nil => rfl
  | cons b bs ih =>
    obtain ⟨hb, hbs⟩ := List.forall_mem_cons.1 hbs
    -- the newest binding is filled in last
    have hstep : ∀ (t : Ty) (ρ : String → Mono), (applyBindings (b :: bs) t).denote θ ρ =
        (applyBindings bs t).denote (fun j => if j = b.1 then b.2.under θ else θ j) ρ := by
      intro t ρ
      rw [show applyBindings (b :: bs) t = fill b.1 b.2 (applyBindings bs t) from rfl, denote_fill,
        hb.denote_eq]
    rw [hstep, ← ih hbs]
    refine denote_congr (fun j _ => ?_) fun _ _ => rfl
    exact hstep (.hole j) .var

theorem applyBindings_hole (h : Layered bs) (hb : (i, u) ∈ bs) : applyBindings bs (.hole i) = applyBindings bs u := by
  induction bs with
  | nil => cases hb
  | cons b bs ih =>
    obtain ⟨hu, hi, hocc, hbs⟩ := h
    obtain rfl | hb := List.mem_cons.1 hb
    · show fill i u (applyBindings bs (.hole i)) = fill i u (applyBindings bs u)
      rw [applyBindings_of_freeOf hu, applyBindings_of_freeOf hi, fill_of_not_mem hocc]
      simp [fill]
    · exact congrArg (fill b.1 b.2) (ih hbs hb)

theorem solves_solution (h : Solved bs) (θ : Nat → Mono) : Solves (solution bs θ) bs := by
  rintro ⟨i, u⟩ hb
  show (applyBindings bs (.hole i)).under θ = u.denote (solution bs θ) .var
  rw [denote_solution h.noVars, applyBindings_hole h.layered hb]
  rfl

/-! ## Taking types apart -/

/-- The type has no holes and no variables beside those of another. -/
def Within (t u : Ty) : Prop :=
  (∀ i ∈ t.holes, i ∈ u.holes) ∧ ∀ x ∈ t.varNames, x ∈ u.varNames

theorem Within.refl (t : Ty) : t.Within t := ⟨fun _ h => h, fun _ h => h⟩

theorem Within.con {name : String} {args : List Ty} (h : t.Within u) (hu : u ∈ args) : t.Within (.con name args) :=
  ⟨fun i hi => mem_holes_con.2 ⟨u, hu, h.1 i hi⟩, fun x hx => mem_varNames_con.2 ⟨u, hu, h.2 x hx⟩⟩

theorem Within.record {name : String} {fields : List (String × Ty)} (h : t.Within u) (hu : (name, u) ∈ fields) :
    t.Within (.record fields) :=
  ⟨fun i hi => mem_holes_record.2 ⟨_, hu, h.1 i hi⟩, fun x hx => mem_varNames_record.2 ⟨_, hu, h.2 x hx⟩⟩

/-- The equations for a field of a record and the field of the same name in another. -/
def splitField (gs : List (String × Ty)) (f : String × Ty) : List (Ty × Ty) :=
  match Table.get? gs f.1 with
  | some b => split f.2 b
  | none => []

theorem splitFields_eq (fs gs : List (String × Ty)) :
    splitFields fs gs = fs.map fun f => (f.1, splitField gs f) := by
  induction fs with
  | nil => rfl
  | cons f fs ih =>
    cases hf : Table.get? gs f.1 <;> simp [splitFields, ih, splitField, hf]

theorem split_cases (a b : Ty) :
    split a b = [(a, b)] ∨ (a = b ∧ split a b = []) ∨
      (∃ name as bs, a = .con name as ∧ b = .con name bs ∧ as.length = bs.length ∧
        split a b = splitList as bs) ∨
      ∃ fs gs, a = .record fs ∧ b = .record gs ∧ Table.sameNames fs gs ∧
        ∀ e, e ∈ split a b ↔ ∃ f ∈ fs, e ∈ splitField gs f := by
  cases a with
  | con n as =>
    cases b with
    | con m bs =>
      by_cases h : n = m ∧ as.length = bs.length
      · exact .inr (.inr (.inl ⟨n, as, bs, rfl, by rw [h.1], h.2, by rw [split, if_pos h]⟩))
      · exact .inl (by rw [split, if_neg h])
    | _ => exact .inl rfl
  | var x =>
    cases b with
    | var y =>
      by_cases h : x = y
      · exact .inr (.inl ⟨by rw [h], by rw [split, if_pos h]⟩)
      · exact .inl (by rw [split, if_neg h])
    | _ => exact .inl rfl
  | hole i =>
    cases b with
    | hole j =>
      by_cases h : i = j
      · exact .inr (.inl ⟨by rw [h], by rw [split, if_pos h]⟩)
      · exact .inl (by rw [split, if_neg h])
    | _ => exact .inl rfl
  | record fs =>
    cases b with
    | record gs =>
      by_cases h : Table.sameNames fs gs
      · refine .inr (.inr (.inr ⟨fs, gs, rfl, rfl, h, fun e => ?_⟩))
        rw [split, if_pos h, splitFields_eq, mem_flatMap_sortByName]
      · exact .inl (by rw [split, if_neg h])
    | _ => exact .inl rfl

theorem mem_splitList {as bs : List Ty} {e : Ty × Ty} :
    e ∈ splitList as bs ↔ ∃ p ∈ as.zip bs, e ∈ split p.1 p.2 := by
  induction as generalizing bs with
  | nil => simp [splitList]
  | cons a as ih => cases bs <;> simp [splitList, ih]

theorem map_eq_map_iff_zip {f : Ty → Mono} {as bs : List Ty} (hlength : as.length = bs.length) :
    as.map f = bs.map f ↔ ∀ p ∈ as.zip bs, f p.1 = f p.2 := by
  induction as generalizing bs with
  | nil =>
    obtain rfl := List.eq_nil_of_length_eq_zero hlength.symm
    simp
  | cons a as ih =>
    cases bs with
    | nil => cases hlength
    | cons b bs => simp [ih (Nat.succ.inj hlength)]

/-- Records with the same names stand for one monotype if the types of each name do. -/
theorem denote_record_congr {fs gs : List (String × Ty)} (hsame : Table.sameNames fs gs)
    (h : ∀ name a b, Table.get? fs name = some a → Table.get? gs name = some b → a.denote θ ρ = b.denote θ ρ) :
    (Ty.record fs).denote θ ρ = (Ty.record gs).denote θ ρ := by
  simp only [denote, denoteFields_eq, Mono.record.injEq]
  funext name
  have hhas := Table.sameNames_iff.1 hsame name
  cases hf : Table.get? fs name with
  | none =>
    cases hg : Table.get? gs name with
    | none => rfl
    | some t => simp [Table.has, hf, hg] at hhas
  | some t =>
    cases hg : Table.get? gs name with
    | none => simp [Table.has, hf, hg] at hhas
    | some u => exact congrArg some (h name t u hf hg)

/-- The equations that two types come down to, one by one: such an equation is not taken apart any further, or it comes
from parts of the types. -/
theorem split_induction {Q : Ty → Ty → Ty × Ty → Prop} (whole : ∀ {a b}, split a b = [(a, b)] → Q a b (a, b))
    (con : ∀ {name as bs p e}, as.length = bs.length → p ∈ as.zip bs → Q p.1 p.2 e →
      Q (.con name as) (.con name bs) e)
    (record : ∀ {fs gs f u e}, f ∈ fs → Table.get? gs f.1 = some u → Q f.2 u e → Q (.record fs) (.record gs) e)
    {a b : Ty} {e : Ty × Ty} (h : e ∈ split a b) : Q a b e := by
  induction a using induct_parts generalizing b with
  | step a ihargs ihfields =>
    obtain hsplit | ⟨-, hsplit⟩ | ⟨n, as, bs, rfl, rfl, hlength, hsplit⟩ | ⟨fs, gs, rfl, rfl, hsame, hsplit⟩ :=
      split_cases a b
    · rw [hsplit] at h
      obtain rfl := List.mem_singleton.1 h
      exact whole hsplit
    · rw [hsplit] at h
      cases h
    · rw [hsplit] at h
      obtain ⟨p, hp, he⟩ := mem_splitList.1 h
      exact con hlength hp (ihargs n as rfl p.1 (List.of_mem_zip hp).1 he)
    · obtain ⟨f, hf, he⟩ := (hsplit e).1 h
      unfold splitField at he
      split at he
      · rename_i u hu
        exact record hf hu (ihfields fs rfl f hf he)
      · cases he

/-- The equations that two types come down to have no holes and variables of their own. -/
theorem split_within (a b : Ty) (e : Ty × Ty) (h : e ∈ split a b) : e.1.Within a ∧ e.2.Within b := by
  refine split_induction (Q := fun a b e => e.1.Within a ∧ e.2.Within b) ?whole ?con ?record h
  case whole => exact fun _ => ⟨.refl _, .refl _⟩
  case con =>
    rintro _ as bs p e - hp ⟨h1, h2⟩
    exact ⟨h1.con (List.of_mem_zip hp).1, h2.con (List.of_mem_zip hp).2⟩
  case record =>
    rintro fs gs f u e hf hu ⟨h1, h2⟩
    exact ⟨h1.record hf, h2.record (Table.mem_of_get? hu)⟩

/-! ## Solving equations -/

theorem FreeOf.fill (ht : FreeOf bs t) (hu : FreeOf bs u) (hocc : i ∉ u.holes) :
    FreeOf ((i, u) :: bs) (fill i u t) := by
  intro j hj b hb
  obtain ⟨hj, hne⟩ | hj := mem_holes_fill hj
  · obtain rfl | hb := List.mem_cons.1 hb
    · exact Ne.symm hne
    · exact ht j hj b hb
  · obtain rfl | hb := List.mem_cons.1 hb
    · rintro rfl
      exact hocc hj
    · exact hu j hj b hb

/-- The equation asks for the hole to be filled with the type. -/
def Asks (i : Nat) (t : Ty) (e : Ty × Ty) : Prop :=
  e = (.hole i, t) ∨ e = (t, .hole i)

/-- What becomes of the first equation: nothing can make its sides equal, or only an infinite type, or a hole
is filled. -/
theorem solve_cons_cases (e : Ty × Ty) (eqs : List (Ty × Ty)) (done : Bindings) :
    ((∀ i t, ¬ Asks i t e) ∧ ∀ fuel, solve fuel (e :: eqs) done = (done, some (.mismatch e.1 e.2))) ∨
      ∃ i t, Asks i t e ∧ ∀ fuel, solve (fuel + 1) (e :: eqs) done =
        if i ∈ t.holes then (done, some (.infinite t)) else solve fuel (splitFilled i t eqs) ((i, t) :: done) := by
  obtain ⟨a, b⟩ := e
  by_cases ha : ∃ i, a = .hole i
  · obtain ⟨i, rfl⟩ := ha
    exact .inr ⟨i, b, .inl rfl, fun fuel => by rw [solve]⟩
  · by_cases hb : ∃ i, b = .hole i
    · obtain ⟨i, rfl⟩ := hb
      refine .inr ⟨i, a, .inr rfl, fun fuel => ?_⟩
      cases a with
      | hole j => exact absurd ⟨j, rfl⟩ ha
      | _ => rw [solve]; nofun
    · refine .inl ⟨?_, fun fuel => ?_⟩
      · rintro i t (h | h)
        · exact ha ⟨i, congrArg Prod.fst h⟩
        · exact hb ⟨i, congrArg Prod.snd h⟩
      cases fuel with
      | zero => rfl
      | succ fuel =>
        rw [solve]
        · exact fun i h => ha ⟨i, h⟩
        · exact fun i h => hb ⟨i, h⟩

end Ty

end VeriScript
