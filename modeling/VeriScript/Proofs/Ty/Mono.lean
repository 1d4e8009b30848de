import VeriScript.Ty.Unify

/-!
# The meaning of types

A type with holes and variables stands for a monotype once holes and variables have one.  Monotypes do not
know the order of the fields of a record, so two types that unification makes equal stand for one monotype.

* `Mono` — monotypes.
* `Ty.denote` — the monotype that a type stands for.
* `Ty.denote_fill`, `Ty.denote_substVars`, `Ty.denote_applyBindings` — what replacing holes and variables means.
-/

namespace VeriScript

/-- Types without holes, up to the order of fields. -/
inductive Mono where
  | con (name : String) (args : List Mono)
  | var (name : String)
  | record (fields : String → Option Mono)

namespace Mono

/-! ## The types of the language -/

abbrev bool : Mono := .con "Bool" []

abbrev int : Mono := .con "Int" []

abbrev string : Mono := .con "String" []

abbrev term : Mono := .con "Term" []

abbrev termType : Mono := .con "Type" []

abbrev tuple (elems : List Mono) : Mono := .con "Tuple" elems

abbrev unit : Mono := .con "Tuple" []

abbrev list (elem : Mono) : Mono := .con "List" [elem]

abbrev fn (arg result : Mono) : Mono := .con "Function" [arg, result]

abbrev block (context result : Mono) : Mono := .con "Block" [context, result]

end Mono

namespace Ty

/-! ## Induction over types -/

/-- Induction that treats the arguments of a constructor and the fields of a record as members of lists. -/
theorem induct {P : Ty → Prop} (con : ∀ name args, (∀ a ∈ args, P a) → P (.con name args))
    (var : ∀ name, P (.var name)) (hole : ∀ id, P (.hole id))
    (record : ∀ fields, (∀ f ∈ fields, P f.2) → P (.record fields)) : ∀ t, P t
  | .con name args => con name args fun a _ => induct con var hole record a
  | .var name => var name
  | .hole id => hole id
  | .record fields => record fields fun f hf =>
    have hsize : sizeOf f.2 < sizeOf fields := by
      have := List.sizeOf_lt_of_mem hf
      cases f
      simp at this ⊢
      omega
    induct con var hole record f.2
termination_by t => sizeOf t

theorem induct_parts {P : Ty → Prop} (step : ∀ t : Ty, (∀ name args, t = .con name args → ∀ a ∈ args, P a) →
    (∀ fields, t = .record fields → ∀ f ∈ fields, P f.2) → P t) (t : Ty) : P t := by
  induction t using induct with
  | con name args ih => exact step _ (fun _ _ h => by cases h; exact ih) nofun
  | var name => exact step _ nofun nofun
  | hole id => exact step _ nofun nofun
  | record fields ih => exact step _ nofun (fun _ h => by cases h; exact ih)

/-! ## Lists of types -/

@[simp] theorem substVarsList_eq (m : List (String × Ty)) (ts : List Ty) :
    substVarsList m ts = ts.map (substVars m) := by
  induction ts with
  | nil => rfl
  | cons t ts ih => exact congrArg (substVars m t :: ·) ih

@[simp] theorem substVarsFields_eq (m : List (String × Ty)) (fs : List (String × Ty)) :
    substVarsFields m fs = fs.map fun f => (f.1, substVars m f.2) := by
  induction fs with
  | nil => rfl
  | cons f fs ih => exact congrArg ((f.1, substVars m f.2) :: ·) ih

@[simp] theorem fillList_eq (id : Nat) (u : Ty) (ts : List Ty) : fillList id u ts = ts.map (fill id u) := by
  induction ts with
  | nil => rfl
  | cons t ts ih => exact congrArg (fill id u t :: ·) ih

@[simp] theorem fillFields_eq (id : Nat) (u : Ty) (fs : List (String × Ty)) :
    fillFields id u fs = fs.map fun f => (f.1, fill id u f.2) := by
  induction fs with
  | nil => rfl
  | cons f fs ih => exact congrArg ((f.1, fill id u f.2) :: ·) ih

@[simp] theorem holeOccurrencesList_eq (ts : List Ty) :
    holeOccurrencesList ts = ts.flatMap holeOccurrences := by
  induction ts with
  | nil => rfl
  | cons t ts ih => exact congrArg (holeOccurrences t ++ ·) ih

@[simp] theorem holeOccurrencesFields_eq (fs : List (String × Ty)) :
    holeOccurrencesFields fs = fs.map fun f => (f.1, holeOccurrences f.2) := by
  induction fs with
  | nil => rfl
  | cons f fs ih => exact congrArg ((f.1, holeOccurrences f.2) :: ·) ih

@[simp] theorem varOccurrencesList_eq (ts : List Ty) :
    varOccurrencesList ts = ts.flatMap varOccurrences := by
  induction ts with
  | nil => rfl
  | cons t ts ih => exact congrArg (varOccurrences t ++ ·) ih

@[simp] theorem varOccurrencesFields_eq (fs : List (String × Ty)) :
    varOccurrencesFields fs = fs.map fun f => (f.1, varOccurrences f.2) := by
  induction fs with
  | nil => rfl
  | cons f fs ih => exact congrArg ((f.1, varOccurrences f.2) :: ·) ih

/-! ## Holes and variables -/

/-- The order in which fields are visited does not matter to what is found in them. -/
theorem mem_flatMap_sortByName {α β : Type} {f : β → String × List α} {xs : List β} {y : α} :
    y ∈ (Table.sortByName (xs.map f)).flatMap (·.2) ↔ ∃ x ∈ xs, y ∈ (f x).2 := by
  simp only [Table.sortByName, List.mem_flatMap, List.mem_mergeSort, List.mem_map]
  constructor
  · rintro ⟨_, ⟨x, hx, rfl⟩, hy⟩
    exact ⟨x, hx, hy⟩
  · rintro ⟨x, hx, hy⟩
    exact ⟨f x, ⟨x, hx, rfl⟩, hy⟩

section
variable {i j : Nat} {x name : String} {args : List Ty} {fields : List (String × Ty)}

@[simp] theorem mem_holes_con : i ∈ (Ty.con name args).holes ↔ ∃ a ∈ args, i ∈ a.holes := by
  simp [holes, holeOccurrences]

@[simp] theorem mem_holes_var : i ∉ (Ty.var name).holes := List.not_mem_nil

@[simp] theorem mem_holes_hole : i ∈ (Ty.hole j).holes ↔ i = j := List.mem_singleton

@[simp] theorem mem_holes_record : i ∈ (Ty.record fields).holes ↔ ∃ f ∈ fields, i ∈ f.2.holes := by
  simp only [holes, holeOccurrences, holeOccurrencesFields_eq, List.mem_eraseDups, mem_flatMap_sortByName]

@[simp] theorem mem_varNames_con : x ∈ (Ty.con name args).varNames ↔ ∃ a ∈ args, x ∈ a.varNames := by
  simp [varNames, varOccurrences]

@[simp] theorem mem_varNames_var : x ∈ (Ty.var name).varNames ↔ x = name := List.mem_singleton

@[simp] theorem mem_varNames_hole : x ∉ (Ty.hole j).varNames := List.not_mem_nil

@[simp] theorem mem_varNames_record : x ∈ (Ty.record fields).varNames ↔ ∃ f ∈ fields, x ∈ f.2.varNames := by
  simp only [varNames, varOccurrences, varOccurrencesFields_eq, List.mem_eraseDups, mem_flatMap_sortByName]

theorem fill_of_not_mem {t u : Ty} (h : i ∉ t.holes) : fill i u t = t := by
  induction t using induct with
  | con name args ih =>
    simp only [mem_holes_con, not_exists, not_and] at h
    simp only [fill, fillList_eq, con.injEq, true_and]
    exact (List.map_congr_left fun a ha => ih a ha (h a ha)).trans (List.map_id _)
  | var name => rfl
  | hole id =>
    simp only [mem_holes_hole] at h
    simp [fill, Ne.symm h]
  | record fields ih =>
    simp only [mem_holes_record, not_exists, not_and] at h
    simp only [fill, fillFields_eq, record.injEq]
    exact (List.map_congr_left fun f hf => by rw [ih f hf (h f hf), id]).trans (List.map_id _)

/-- Filling a hole leaves the other holes and brings those of the new type. -/
theorem mem_holes_fill {t u : Ty} (h : j ∈ (fill i u t).holes) : j ∈ t.holes ∧ j ≠ i ∨ j ∈ u.holes := by
  induction t using induct with
  | con name args ih =>
    simp only [fill, fillList_eq, mem_holes_con, List.mem_map] at h ⊢
    obtain ⟨_, ⟨a, ha, rfl⟩, hj⟩ := h
    exact (ih a ha hj).imp_left fun h => ⟨⟨a, ha, h.1⟩, h.2⟩
  | var name => simp [fill] at h
  | hole id =>
    simp only [fill] at h
    split at h
    · exact .inr h
    · rename_i hid
      simp only [mem_holes_hole] at h ⊢
      exact .inl ⟨h, h ▸ hid⟩
  | record fields ih =>
    simp only [fill, fillFields_eq, mem_holes_record, List.mem_map] at h ⊢
    obtain ⟨_, ⟨f, hf, rfl⟩, hj⟩ := h
    exact (ih f hf hj).imp_left fun h => ⟨⟨f, hf, h.1⟩, h.2⟩

theorem mem_varNames_fill {t u : Ty} (h : x ∈ (fill i u t).varNames) : x ∈ t.varNames ∨ x ∈ u.varNames := by
  induction t using induct with
  | con name args ih =>
    simp only [fill, fillList_eq, mem_varNames_con, List.mem_map] at h ⊢
    obtain ⟨_, ⟨a, ha, rfl⟩, hx⟩ := h
    exact (ih a ha hx).imp_left fun h => ⟨a, ha, h⟩
  | var name => exact .inl h
  | hole id =>
    simp only [fill] at h
    split at h
    · exact .inr h
    · exact .inl h
  | record fields ih =>
    simp only [fill, fillFields_eq, mem_varNames_record, List.mem_map] at h ⊢
    obtain ⟨_, ⟨f, hf, rfl⟩, hx⟩ := h
    exact (ih f hf hx).imp_left fun h => ⟨f, hf, h⟩

theorem mem_varNames_substVars {m : List (String × Ty)} {t : Ty} (h : x ∈ (substVars m t).varNames) :
    x ∈ t.varNames ∧ Table.get? m x = none ∨ ∃ e ∈ m, x ∈ e.2.varNames := by
  induction t using induct with
  | con name args ih =>
    simp only [substVars, substVarsList_eq, mem_varNames_con, List.mem_map] at h ⊢
    obtain ⟨_, ⟨a, ha, rfl⟩, hx⟩ := h
    exact (ih a ha hx).imp_left fun h => ⟨⟨a, ha, h.1⟩, h.2⟩
  | var name =>
    simp only [substVars] at h
    cases hget : Table.get? m name with
    | none =>
      simp only [hget, Option.getD_none, mem_varNames_var] at h ⊢
      exact .inl ⟨h, h ▸ hget⟩
    | some u => exact .inr ⟨_, Table.mem_of_get? hget, by simpa [hget] using h⟩
  | hole id => simp [substVars] at h
  | record fields ih =>
    simp only [substVars, substVarsFields_eq, mem_varNames_record, List.mem_map] at h ⊢
    obtain ⟨_, ⟨f, hf, rfl⟩, hx⟩ := h
    exact (ih f hf hx).imp_left fun h => ⟨⟨f, hf, h.1⟩, h.2⟩

end

/-! ## Meaning -/

mutual

/-- The monotype that a type stands for, with monotypes for its holes and its variables. -/
def denote (θ : Nat → Mono) (ρ : String → Mono) : Ty → Mono
  | .con name args => .con name (denoteList θ ρ args)
  | .var name => ρ name
  | .hole id => θ id
  | .record fields => .record (denoteFields θ ρ fields)

def denoteList (θ : Nat → Mono) (ρ : String → Mono) : List Ty → List Mono
  | [] => []
  | t :: ts => denote θ ρ t :: denoteList θ ρ ts

def denoteFields (θ : Nat → Mono) (ρ : String → Mono) : List (String × Ty) → String → Option Mono
  | [], _ => none
  | (k, t) :: fs, name => if k = name then some (denote θ ρ t) else denoteFields θ ρ fs name

end

section
variable {θ θ' : Nat → Mono} {ρ ρ' : String → Mono}

@[simp] theorem denoteList_eq (ts : List Ty) : denoteList θ ρ ts = ts.map (denote θ ρ) := by
  induction ts with
  | nil => rfl
  | cons t ts ih => simp [denoteList, ih]

@[simp] theorem denoteFields_eq (fs : List (String × Ty)) :
    denoteFields θ ρ fs = fun name => (Table.get? fs name).map (denote θ ρ) := by
  funext name
  induction fs with
  | nil => rfl
  | cons f fs ih =>
    obtain ⟨k, t⟩ := f
    by_cases h : k = name <;> simp [denoteFields, Table.get?, h, ih]

theorem denote_congr {t : Ty} (hθ : ∀ i ∈ t.holes, θ i = θ' i) (hρ : ∀ x ∈ t.varNames, ρ x = ρ' x) :
    denote θ ρ t = denote θ' ρ' t := by
  induction t using induct with
  | con name args ih =>
    simp only [mem_holes_con, mem_varNames_con] at hθ hρ
    simp only [denote, denoteList_eq, Mono.con.injEq, true_and]
    exact List.map_congr_left fun a ha => ih a ha (fun i hi => hθ i ⟨a, ha, hi⟩) (fun x hx => hρ x ⟨a, ha, hx⟩)
  | var name => exact hρ name (by simp)
  | hole id => exact hθ id (by simp)
  | record fields ih =>
    simp only [mem_holes_record, mem_varNames_record] at hθ hρ
    simp only [denote, denoteFields_eq, Mono.record.injEq]
    funext name
    refine Option.map_congr fun t ht => ?_
    have hf := Table.mem_of_get? ht
    exact ih _ hf (fun i hi => hθ i ⟨_, hf, hi⟩) (fun x hx => hρ x ⟨_, hf, hx⟩)

theorem denote_fill (i : Nat) (u t : Ty) :
    denote θ ρ (fill i u t) = denote (fun j => if j = i then denote θ ρ u else θ j) ρ t := by
  induction t using induct with
  | con name args ih =>
    simp only [fill, denote, fillList_eq, denoteList_eq, List.map_map, Mono.con.injEq, true_and]
    exact List.map_congr_left fun a ha => ih a ha
  | var name => rfl
  | hole id =>
    simp only [fill, denote]
    split <;> rfl
  | record fields ih =>
    simp only [fill, denote, fillFields_eq, denoteFields_eq, Table.get?_map, Mono.record.injEq]
    funext name
    rw [Option.map_map]
    exact Option.map_congr fun t ht => ih _ (Table.mem_of_get? ht)

theorem denote_substVars (m : List (String × Ty)) (t : Ty) :
    denote θ ρ (substVars m t) =
      denote θ (fun x => ((Table.get? m x).map (denote θ ρ)).getD (ρ x)) t := by
  induction t using induct with
  | con name args ih =>
    simp only [substVars, denote, substVarsList_eq, denoteList_eq, List.map_map, Mono.con.injEq, true_and]
    exact List.map_congr_left fun a ha => ih a ha
  | var name =>
    simp only [substVars, denote]
    cases Table.get? m name <;> rfl
  | hole id => rfl
  | record fields ih =>
    simp only [substVars, denote, substVarsFields_eq, denoteFields_eq, Table.get?_map, Mono.record.injEq]
    funext name
    rw [Option.map_map]
    exact Option.map_congr fun t ht => ih _ (Table.mem_of_get? ht)

end

end Ty

end VeriScript
