import VeriScript.Proofs.Ty.Principal
import VeriScript.Proofs.Typing.State

/-!
# Generalisation keeps every instance

Generalisation gives names of their own to the holes that the environment does not share, so that every solution
that agrees with the environment is an instance of the schema.

* `Ty.Distinct.eq_of_denote_eq` — what a type stands for determines what its holes and variables stand for.
* `Check.generalize_complete` — the type under any solution that agrees with another one on the environment is an
  instance of its schema under that other solution.
-/

namespace VeriScript

open Ty (Solves under Distinct)

/-! ## Holes and what they stand for -/

namespace Ty

theorem Distinct.eq_of_denote_eq {t : Ty} (h : t.Distinct) {θ θ' : Nat → Mono} {ρ ρ' : String → Mono}
    (heq : t.denote θ ρ = t.denote θ' ρ') : (∀ i ∈ t.holes, θ i = θ' i) ∧ ∀ x ∈ t.varNames, ρ x = ρ' x := by
  induction h with
  | con _ ih =>
    simp only [denote, denoteList_eq, Mono.con.injEq, true_and] at heq
    constructor
    · intro i hi
      obtain ⟨a, ha, hi⟩ := mem_holes_con.1 hi
      exact (ih a ha (List.map_inj_left.1 heq a ha)).1 i hi
    · intro x hx
      obtain ⟨a, ha, hx⟩ := mem_varNames_con.1 hx
      exact (ih a ha (List.map_inj_left.1 heq a ha)).2 x hx
  | var =>
    refine ⟨fun i hi => absurd hi mem_holes_var, fun x hx => ?_⟩
    obtain rfl := mem_varNames_var.1 hx
    exact heq
  | hole _ =>
    refine ⟨fun i hi => ?_, fun x hx => absurd hx mem_varNames_hole⟩
    obtain rfl := mem_holes_hole.1 hi
    exact heq
  | @record fields names _ ih =>
    simp only [denote, denoteFields_eq, Mono.record.injEq] at heq
    have hfield : ∀ f ∈ fields, f.2.denote θ ρ = f.2.denote θ' ρ' := by
      intro f hf
      have hname := congrFun heq f.1
      rw [Table.get?_of_mem names hf] at hname
      exact Option.some.inj hname
    constructor
    · intro i hi
      obtain ⟨f, hf, hi⟩ := mem_holes_record.1 hi
      exact (ih f hf (hfield f hf)).1 i hi
    · intro x hx
      obtain ⟨f, hf, hx⟩ := mem_varNames_record.1 hx
      exact (ih f hf (hfield f hf)).2 x hx

end Ty

namespace Check

/-- Different names can stand for anything, and other variables for what they stood for. -/
theorem exists_valuation {pairs : List (Nat × String)} (h : (pairs.map (·.2)).Nodup) (θ : Nat → Mono)
    (ρ : String → Mono) :
    ∃ ρ' : String → Mono, (∀ p ∈ pairs, ρ' p.2 = θ p.1) ∧ ∀ x, x ∉ pairs.map (·.2) → ρ' x = ρ x := by
  induction pairs with
  | nil => exact ⟨ρ, List.forall_mem_nil _, fun _ _ => rfl⟩
  | cons p pairs ih =>
    obtain ⟨hp, hpairs⟩ : p.2 ∉ pairs.map (·.2) ∧ (pairs.map (·.2)).Nodup := List.nodup_cons.1 h
    obtain ⟨ρ', hρ', hother⟩ := ih hpairs
    refine ⟨fun x => if x = p.2 then θ p.1 else ρ' x, List.forall_mem_cons.2 ⟨if_pos rfl, fun q hq => ?_⟩,
      fun x hx => ?_⟩
    · have hmem : q.2 ∈ pairs.map (·.2) := List.mem_map.2 ⟨q, hq, rfl⟩
      have hne : q.2 ≠ p.2 := fun heq => hp (heq ▸ hmem)
      exact (if_neg hne).trans (hρ' q hq)
    · obtain ⟨hne, hx⟩ := not_or.1 (mt List.mem_cons.2 hx)
      exact (if_neg hne).trans (hother x hx)

/-- Names that stand for what the holes stood for change no meaning. -/
theorem denote_nameHoles_of_valuation {θ : Nat → Mono} {ρ : String → Mono} {pairs : List (Nat × String)}
    (h : ∀ p ∈ pairs, ρ p.2 = θ p.1) (t : Ty) :
    (pairs.foldl (fun t h => Ty.fill h.1 (.var h.2) t) t).denote θ ρ = t.denote θ ρ := by
  induction pairs generalizing t with
  | nil => rfl
  | cons p pairs ih =>
    obtain ⟨hp, hpairs⟩ := List.forall_mem_cons.1 h
    rw [List.foldl_cons, ih hpairs, Ty.denote_fill]
    refine Ty.denote_congr (fun j _ => ?_) fun _ _ => rfl
    by_cases hj : j = p.1
    · rw [if_pos hj, hj]
      exact hp
    · rw [if_neg hj]

/-- A type is an instance of its generalisation under any monotypes that agree on the holes that are kept. -/
theorem generalizeOver_complete {t : Ty} {kept : List Nat} {θ θ' : Nat → Mono} (ρ : String → Mono)
    (h : ∀ i ∈ t.holes, i ∈ kept → θ i = θ' i) :
    ∃ ρ', (t.generalizeOver kept).type.denote θ' ρ' = t.denote θ ρ := by
  generalize hholes : t.holes.filter (fun id => !kept.contains id) = holes
  generalize hnames : freshNames t.varNames (t.varNames.length + holes.length) holes.length 0 = names
  have hsecond : (holes.zip names).map (·.2) = names := by
    rw [List.map_snd_zip]
    exact Nat.le_of_eq (hnames ▸ length_freshNames)
  have hdistinct : ((holes.zip names).map (·.2)).Nodup := by
    rw [hsecond, ← hnames]
    exact freshNames_nodup
  obtain ⟨ρ', hρ', hother⟩ := exists_valuation hdistinct θ ρ
  refine ⟨ρ', ?_⟩
  calc (t.generalizeOver kept).type.denote θ' ρ'
    _ = (t.generalizeOver kept).type.denote θ ρ' := by
      refine Ty.denote_congr (fun i hi => ?_) fun _ _ => rfl
      obtain ⟨hi, hkept⟩ := mem_holes_generalizeOver hi
      exact (h i hi hkept).symm
    _ = t.denote θ ρ' := by
      unfold Ty.generalizeOver
      dsimp only
      rw [hholes, hnames]
      exact denote_nameHoles_of_valuation hρ' t
    _ = t.denote θ ρ := by
      refine Ty.denote_congr (fun _ _ => rfl) fun x hx => hother x fun hmem => ?_
      rw [hsecond, ← hnames] at hmem
      exact (mem_freshNames hmem).1 hx

/-- The type under any solution that agrees with another one on the environment is an instance of its schema
under that other solution. -/
theorem generalize_complete {st st' : CheckState} {env : TypeEnv} {t : Ty} {s : Schema} {θ θ' : Nat → Mono}
    (h : generalize env t st = .ok s st') (hbindings : ∀ b ∈ st.bindings, b.2.Distinct)
    (henv : ∀ e ∈ env.types, e.2.type.Distinct) (hθ : Solves θ st.bindings) (hθ' : Solves θ' st.bindings)
    (hsame : ∀ e ∈ env.types, ∀ i ∈ e.2.type.holes, θ i = θ' i) : ∃ ρ, s.type.denote θ' ρ = t.under θ := by
  rw [generalize_eq] at h
  cases h
  have hkept : ∀ i, i ∈ (env.types.flatMap fun e => (Ty.applyBindings st.bindings e.2.type).holes) → θ i = θ' i := by
    intro i hi
    obtain ⟨e, he, hi⟩ := List.mem_flatMap.1 hi
    have hdistinct : (Ty.applyBindings st.bindings e.2.type).Distinct :=
      Ty.Every.applyBindings (henv e he) hbindings
    have heq : (Ty.applyBindings st.bindings e.2.type).under θ = (Ty.applyBindings st.bindings e.2.type).under θ' := by
      rw [Ty.under_applyBindings hθ, Ty.under_applyBindings hθ']
      exact Ty.denote_congr (hsame e he) fun _ _ => rfl
    exact (hdistinct.eq_of_denote_eq heq).1 i hi
  obtain ⟨ρ, hρ⟩ := generalizeOver_complete .var fun i _ hi => hkept i hi
  exact ⟨ρ, hρ.trans (Ty.under_applyBindings hθ)⟩

end Check

end VeriScript
