import Mathlib.Data.List.Basic
import VeriScript.Proofs.Ty.Constructors
import VeriScript.Proofs.Ty.Unify
import VeriScript.Ty.Printer

/-!
# Types that can be written

* `Ty.fault?_con_eq_none_iff` — a constructor with the parameters it takes keeps nothing from being written.
* `Ty.Saturated.shown` — so a type all of whose constructors have them is written.
* `Ty.unify_saturated` — unification of such types binds holes to such types, and stops at such types.
-/

namespace VeriScript.Ty

variable {t : Ty} {name : String} {args : List Ty} {fields : List (String × Ty)}

/-! ## Faults -/

theorem faultList_eq_none_iff {ts : List Ty} : faultList ts = none ↔ ∀ t ∈ ts, t.fault? = none := by
  induction ts with
  | nil => simp [faultList]
  | cons t ts ih => simp [faultList, Option.or_eq_none_iff, ih]

theorem faultFields_eq (fs : List (String × Ty)) : faultFields fs = fs.map fun f => (f.1, f.2.fault?) := by
  induction fs with
  | nil => rfl
  | cons f fs ih => simp [faultFields, ih]

theorem fault?_record_eq_none_iff : (Ty.record fields).fault? = none ↔ ∀ f ∈ fields, f.2.fault? = none := by
  rw [fault?, faultFields_eq, List.findSome?_eq_none_iff]
  simp only [(Table.perm_sortByName _).mem_iff, List.forall_mem_map]

/-- A constructor with the parameters it takes has one of the forms of the language. -/
theorem forms_of_fits (h : Fits (name, args.length)) :
    (name = "Tuple") ∨ (∃ a b, name = "Function" ∧ args = [a, b]) ∨ (∃ a b, name = "Block" ∧ args = [a, b]) ∨
      (∃ a, name = "List" ∧ args = [a]) ∨ arity? name = some 0 ∧ args = [] := by
  by_cases htuple : name = "Tuple"
  · exact .inl htuple
  by_cases hfn : name = "Function"
  · subst hfn
    have hlength : args.length = 2 := h 2 rfl
    obtain ⟨a, b, rfl⟩ := List.length_eq_two.1 hlength
    exact .inr (.inl ⟨a, b, rfl, rfl⟩)
  by_cases hblock : name = "Block"
  · subst hblock
    have hlength : args.length = 2 := h 2 rfl
    obtain ⟨a, b, rfl⟩ := List.length_eq_two.1 hlength
    exact .inr (.inr (.inl ⟨a, b, rfl, rfl⟩))
  by_cases hlist : name = "List"
  · subst hlist
    have hlength : args.length = 1 := h 1 rfl
    obtain ⟨a, rfl⟩ := List.length_eq_one_iff.1 hlength
    exact .inr (.inr (.inr (.inl ⟨a, rfl, rfl⟩)))
  have hplain : arity? name = some 0 := by simp [arity?, htuple, hfn, hblock, hlist]
  have hlength : args.length = 0 := h 0 hplain
  exact .inr (.inr (.inr (.inr ⟨hplain, List.length_eq_zero_iff.1 hlength⟩)))

theorem fault?_plain (h : arity? name = some 0) : (Ty.con name []).fault? = none := by
  unfold fault?
  split <;> simp_all [arity?]

theorem fault?_con_eq_none_iff (h : Fits (name, args.length)) :
    (Ty.con name args).fault? = none ↔ ∀ a ∈ args, a.fault? = none := by
  rcases forms_of_fits h with rfl | ⟨a, b, rfl, rfl⟩ | ⟨a, b, rfl, rfl⟩ | ⟨a, rfl, rfl⟩ | ⟨hplain, rfl⟩
  · simp [fault?, faultList_eq_none_iff]
  · simp [fault?, Option.or_eq_none_iff]
  · simp [fault?, Option.or_eq_none_iff]
  · simp [fault?]
  · simp [fault?_plain hplain]

theorem Saturated.fault?_eq_none (h : t.Saturated) : t.fault? = none := by
  induction t using induct with
  | con name args ih =>
    obtain ⟨hfits, hargs⟩ := saturated_con.1 h
    exact (fault?_con_eq_none_iff hfits).2 fun a ha => ih a ha (hargs a ha)
  | var name => rfl
  | hole id => rfl
  | record fields ih => exact fault?_record_eq_none_iff.2 fun f hf => ih f hf (saturated_record.1 h f hf)

theorem shown_eq_ok_iff {s : String} : t.shown = .ok s ↔ t.fault? = none ∧ t.render = s := by
  unfold shown
  cases t.fault? <;> simp

theorem exists_shown_iff : (∃ s, t.shown = .ok s) ↔ t.fault? = none := by
  simp [shown_eq_ok_iff]

theorem Saturated.shown (h : t.Saturated) : t.shown = .ok t.render :=
  shown_eq_ok_iff.2 ⟨h.fault?_eq_none, rfl⟩

/-! ## Equations -/

def faultTypes : UnifyFault → List Ty
  | .mismatch a b => [a, b]
  | .infinite t => [t]

/-- The equations that two types come down to have no constructors of their own. -/
theorem mem_constructors_split (a b : Ty) : ∀ e ∈ split a b,
    e.1.constructors ⊆ a.constructors ∧ e.2.constructors ⊆ b.constructors := by
  intro e he
  refine split_induction (Q := fun a b e => e.1.constructors ⊆ a.constructors ∧ e.2.constructors ⊆ b.constructors)
    ?whole ?con ?record he
  case whole => exact fun _ => ⟨List.Subset.refl _, List.Subset.refl _⟩
  case con =>
    rintro n as bs p e - hp ⟨hleft, hright⟩
    obtain ⟨ha, hb⟩ := List.of_mem_zip hp
    constructor
    · exact fun c hc => mem_constructors_con.2 (.inr ⟨p.1, ha, hleft hc⟩)
    · exact fun c hc => mem_constructors_con.2 (.inr ⟨p.2, hb, hright hc⟩)
  case record =>
    rintro fs gs f u e hf hu ⟨hleft, hright⟩
    constructor
    · exact fun c hc => mem_constructors_record.2 ⟨f, hf, hleft hc⟩
    · exact fun c hc => mem_constructors_record.2 ⟨_, Table.mem_of_get? hu, hright hc⟩

theorem split_saturated {a b : Ty} (ha : a.Saturated) (hb : b.Saturated) :
    ∀ e ∈ split a b, e.1.Saturated ∧ e.2.Saturated := by
  intro e he
  obtain ⟨hleft, hright⟩ := mem_constructors_split a b e he
  exact ⟨fun c hc => ha c (hleft hc), fun c hc => hb c (hright hc)⟩

/-- Solving equations binds holes to saturated types, and stops at saturated types. -/
theorem solve_saturated (fuel : Nat) {eqs : List (Ty × Ty)} {done : Bindings}
    (heqs : ∀ e ∈ eqs, e.1.Saturated ∧ e.2.Saturated) (hdone : ∀ b ∈ done, b.2.Saturated) :
    (∀ b ∈ (solve fuel eqs done).1, b.2.Saturated) ∧
      ∀ fault ∈ (solve fuel eqs done).2, ∀ t ∈ faultTypes fault, t.Saturated := by
  induction fuel generalizing eqs done with
  | zero =>
    cases eqs with
    | nil => exact ⟨hdone, by rintro _ ⟨⟩⟩
    | cons e eqs =>
      refine ⟨hdone, ?_⟩
      rintro _ ⟨⟩
      simpa [faultTypes] using heqs e List.mem_cons_self
  | succ fuel ih =>
    cases eqs with
    | nil => exact ⟨hdone, by rintro _ ⟨⟩⟩
    | cons e eqs =>
      obtain ⟨he, heqs⟩ := List.forall_mem_cons.1 heqs
      obtain ⟨-, hstop⟩ | ⟨i, t, hasks, hsolve⟩ := solve_cons_cases e eqs done
      · rw [hstop]
        refine ⟨hdone, ?_⟩
        rintro _ ⟨⟩
        simpa [faultTypes] using he
      · have ht : t.Saturated := by
          rcases hasks with rfl | rfl
          · exact he.2
          · exact he.1
        rw [hsolve]
        split
        · refine ⟨hdone, ?_⟩
          rintro _ ⟨⟩
          simpa [faultTypes] using ht
        · apply ih
          · intro e' he'
            obtain ⟨e, he, he'⟩ := List.mem_flatMap.1 he'
            obtain ⟨hleft, hright⟩ := heqs e he
            exact split_saturated (hleft.fill ht) (hright.fill ht) e' he'
          · exact List.forall_mem_cons.2 ⟨ht, hdone⟩

theorem unify_saturated {bs : Bindings} {a b : Ty} (hbs : ∀ b ∈ bs, b.2.Saturated) (ha : a.Saturated)
    (hb : b.Saturated) :
    (∀ b' ∈ (unify bs a b).1, b'.2.Saturated) ∧
      ∀ fault ∈ (unify bs a b).2, ∀ t ∈ faultTypes fault, t.Saturated :=
  solve_saturated _ (split_saturated (ha.applyBindings hbs) (hb.applyBindings hbs)) hbs

end VeriScript.Ty
