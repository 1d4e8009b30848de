import Mathlib.Logic.Relation
import Mathlib.Order.WellFounded
import VeriScript.Proofs.Ty.Mono

/-!
# Variables of monotypes

* `Mono.Part` — the parts of a monotype; no monotype is a part of itself.
* `Mono.Occurs`, `Mono.subst` — the variables of a monotype, and monotypes in their places.
* `Ty.denote_subst` — what a type stands for after its holes and variables have been given other monotypes.
-/

namespace VeriScript

namespace Mono

/-! ## Parts -/

/-- The first is an argument or a field of the second. -/
inductive Part : Mono → Mono → Prop
  | arg {name : String} {args : List Mono} {τ : Mono} (mem : τ ∈ args) : Part τ (.con name args)
  | field {fields : String → Option Mono} {name : String} {τ : Mono} (get : fields name = some τ) :
    Part τ (.record fields)

mutual

theorem acc_part : ∀ τ : Mono, Acc Part τ
  | .con _ args => ⟨_, fun σ h => by
    cases h with
    | arg mem => exact acc_part_list args σ mem⟩
  | .var _ => ⟨_, fun σ h => by cases h⟩
  | .record fields => ⟨_, fun σ h => by
    cases h with
    | field get => exact acc_part_option (fields _) σ get⟩

theorem acc_part_list : ∀ τs : List Mono, ∀ σ ∈ τs, Acc Part σ
  | [] => List.forall_mem_nil _
  | τ :: τs => List.forall_mem_cons.2 ⟨acc_part τ, acc_part_list τs⟩

theorem acc_part_option : ∀ (o : Option Mono) (σ : Mono), o = some σ → Acc Part σ
  | none, _, h => nomatch h
  | some τ, _, h => Option.some.inj h ▸ acc_part τ

end

theorem not_part_self (τ : Mono) : ¬ Relation.TransGen Part τ τ :=
  (WellFounded.transGen ⟨acc_part⟩).irrefl.irrefl τ

theorem induct {P : Mono → Prop} (step : ∀ τ, (∀ σ, Part σ τ → P σ) → P τ) (τ : Mono) : P τ :=
  (WellFounded.intro acc_part).induction τ step

/-! ## Variables -/

/-- The variable occurs in the monotype. -/
inductive Occurs (x : String) : Mono → Prop
  | var : Occurs x (.var x)
  | part {σ τ : Mono} (part : Part σ τ) (occurs : Occurs x σ) : Occurs x τ

mutual

/-- The monotype with monotypes in the places of its variables. -/
def subst (ρ : String → Mono) : Mono → Mono
  | .con name args => .con name (substList ρ args)
  | .var x => ρ x
  | .record fields => .record fun name => substOption ρ (fields name)

def substList (ρ : String → Mono) : List Mono → List Mono
  | [] => []
  | τ :: τs => τ.subst ρ :: substList ρ τs

def substOption (ρ : String → Mono) : Option Mono → Option Mono
  | none => none
  | some τ => some (τ.subst ρ)

end

variable {ρ ρ' : String → Mono} {τ : Mono}

@[simp] theorem substList_eq (τs : List Mono) : substList ρ τs = τs.map (subst ρ) := by
  induction τs with
  | nil => rfl
  | cons τ τs ih => simp [substList, ih]

@[simp] theorem substOption_eq (o : Option Mono) : substOption ρ o = o.map (subst ρ) := by
  cases o <;> rfl

theorem subst_congr (h : ∀ x, τ.Occurs x → ρ x = ρ' x) : τ.subst ρ = τ.subst ρ' := by
  induction τ using induct with
  | step τ ih =>
    have hpart : ∀ σ, Part σ τ → σ.subst ρ = σ.subst ρ' := fun σ hσ => ih σ hσ fun x hx => h x (.part hσ hx)
    cases τ with
    | con name args =>
      simp only [subst, substList_eq, con.injEq, true_and]
      exact List.map_congr_left fun σ hσ => hpart σ (.arg hσ)
    | var x => exact h x .var
    | record fields =>
      simp only [subst, substOption_eq, record.injEq]
      funext name
      exact Option.map_congr fun σ hσ => hpart σ (.field hσ)

theorem subst_var (τ : Mono) : τ.subst .var = τ := by
  induction τ using induct with
  | step τ ih =>
    cases τ with
    | con name args =>
      simp only [subst, substList_eq, con.injEq, true_and]
      exact (List.map_congr_left fun σ hσ => ih σ (.arg hσ)).trans (List.map_id _)
    | var x => rfl
    | record fields =>
      simp only [subst, substOption_eq, record.injEq]
      funext name
      exact (Option.map_congr fun σ hσ => ih σ (.field hσ)).trans Option.map_id_apply

/-- One substitution after another is the substitution of what the one gives under the other. -/
theorem subst_subst (τ : Mono) : (τ.subst ρ).subst ρ' = τ.subst fun x => (ρ x).subst ρ' := by
  induction τ using induct with
  | step τ ih =>
    cases τ with
    | con name args =>
      simp only [subst, substList_eq, List.map_map, con.injEq, true_and]
      exact List.map_congr_left fun σ hσ => ih σ (.arg hσ)
    | var x => rfl
    | record fields =>
      simp only [subst, substOption_eq, Option.map_map, record.injEq]
      funext name
      exact Option.map_congr fun σ hσ => ih σ (.field hσ)

/-- The variables that are left come from what stands in the places of others. -/
theorem occurs_subst {x : String} (h : (τ.subst ρ).Occurs x) : ∃ y, τ.Occurs y ∧ (ρ y).Occurs x := by
  induction τ using induct with
  | step τ ih =>
    cases τ with
    | con name args =>
      rw [subst, substList_eq] at h
      cases h with
      | part hpart hx =>
        cases hpart with
        | arg hmem =>
          obtain ⟨σ, hσ, rfl⟩ := List.mem_map.1 hmem
          obtain ⟨y, hy, hx⟩ := ih σ (.arg hσ) hx
          exact ⟨y, .part (.arg hσ) hy, hx⟩
    | var y => exact ⟨y, .var, h⟩
    | record fields =>
      simp only [subst, substOption_eq] at h
      cases h with
      | part hpart hx =>
        cases hpart with
        | field hfield =>
          obtain ⟨σ, hσ, rfl⟩ := Option.map_eq_some_iff.1 hfield
          obtain ⟨y, hy, hx⟩ := ih σ (.field hσ) hx
          exact ⟨y, .part (.field hσ) hy, hx⟩

end Mono

namespace Ty

variable {θ : Nat → Mono} {ρ σ : String → Mono} {t : Ty} {x : String}

theorem denote_subst (t : Ty) :
    (t.denote θ ρ).subst σ = t.denote (fun i => (θ i).subst σ) fun x => (ρ x).subst σ := by
  induction t using induct with
  | con name args ih =>
    simp only [denote, denoteList_eq, Mono.subst, Mono.substList_eq, List.map_map, Mono.con.injEq, true_and]
    exact List.map_congr_left ih
  | var name => rfl
  | hole id => rfl
  | record fields ih =>
    simp only [denote, denoteFields_eq, Mono.subst, Mono.substOption_eq, Mono.record.injEq]
    funext name
    rw [Option.map_map]
    exact Option.map_congr fun t ht => ih _ (Table.mem_of_get? ht)

/-- The variables of what a type stands for come from its holes and from its variables. -/
theorem occurs_denote (h : (t.denote θ ρ).Occurs x) :
    (∃ i ∈ t.holes, (θ i).Occurs x) ∨ ∃ y ∈ t.varNames, (ρ y).Occurs x := by
  induction t using induct with
  | con name args ih =>
    rw [denote, denoteList_eq] at h
    cases h with
    | part part occurs =>
      cases part with
      | arg mem =>
        obtain ⟨a, ha, rfl⟩ := List.mem_map.1 mem
        obtain ⟨i, hi, hx⟩ | ⟨y, hy, hx⟩ := ih a ha occurs
        · exact .inl ⟨i, mem_holes_con.2 ⟨a, ha, hi⟩, hx⟩
        · exact .inr ⟨y, mem_varNames_con.2 ⟨a, ha, hy⟩, hx⟩
  | var name => exact .inr ⟨name, mem_varNames_var.2 rfl, h⟩
  | hole id => exact .inl ⟨id, mem_holes_hole.2 rfl, h⟩
  | record fields ih =>
    rw [denote, denoteFields_eq] at h
    cases h with
    | part part occurs =>
      cases part with
      | field get =>
        obtain ⟨t, ht, rfl⟩ := Option.map_eq_some_iff.1 get
        have hmem := Table.mem_of_get? ht
        obtain ⟨i, hi, hx⟩ | ⟨y, hy, hx⟩ := ih _ hmem occurs
        · exact .inl ⟨i, mem_holes_record.2 ⟨_, hmem, hi⟩, hx⟩
        · exact .inr ⟨y, mem_varNames_record.2 ⟨_, hmem, hy⟩, hx⟩

end Ty

end VeriScript
