import VeriScript.Proofs.Ty.Mono

/-!
# The constructors of a type

* `Ty.constructors` — the names of the constructors in a type, each with the number of its parameters.
* `Ty.Expanded` — all of these names are the language's own.
* `Ty.Saturated` — every constructor has as many parameters as it takes.
* `Ty.Saturated.fill`, `Ty.Saturated.substVars`, `Ty.Saturated.applyBindings` — replacing holes and variables leaves
  the constructors as they are and brings those of the new types.
-/

namespace VeriScript.Ty

mutual

/-- The names of the constructors in a type, each with the number of its parameters. -/
def constructors : Ty → List (String × Nat)
  | .con name args => (name, args.length) :: constructorsList args
  | .var _ => []
  | .hole _ => []
  | .record fields => constructorsFields fields

def constructorsList : List Ty → List (String × Nat)
  | [] => []
  | t :: ts => constructors t ++ constructorsList ts

def constructorsFields : List (String × Ty) → List (String × Nat)
  | [] => []
  | (_, t) :: fs => constructors t ++ constructorsFields fs

end

@[simp] theorem constructorsList_eq (ts : List Ty) : constructorsList ts = ts.flatMap constructors := by
  induction ts with
  | nil => rfl
  | cons t ts ih => simp [constructorsList, ih]

@[simp] theorem constructorsFields_eq (fs : List (String × Ty)) :
    constructorsFields fs = fs.flatMap fun f => constructors f.2 := by
  induction fs with
  | nil => rfl
  | cons f fs ih => simp [constructorsFields, ih]

section
variable {c : String × Nat} {name : String} {args : List Ty} {fields : List (String × Ty)}

@[simp] theorem mem_constructors_con :
    c ∈ (Ty.con name args).constructors ↔ c = (name, args.length) ∨ ∃ a ∈ args, c ∈ a.constructors := by
  simp [constructors]

@[simp] theorem constructors_var : (Ty.var name).constructors = [] := rfl

@[simp] theorem constructors_hole {id : Nat} : (Ty.hole id).constructors = [] := rfl

@[simp] theorem mem_constructors_record :
    c ∈ (Ty.record fields).constructors ↔ ∃ f ∈ fields, c ∈ f.2.constructors := by
  simp [constructors]

/-- Filling a hole keeps the constructors and brings those of the new type. -/
theorem mem_constructors_fill {i : Nat} {t u : Ty} (h : c ∈ (fill i u t).constructors) :
    c ∈ t.constructors ∨ c ∈ u.constructors := by
  induction t using induct with
  | con name args ih =>
    simp only [fill, fillList_eq, mem_constructors_con, List.length_map, List.mem_map] at h ⊢
    rcases h with h | ⟨_, ⟨a, ha, rfl⟩, hc⟩
    · exact .inl (.inl h)
    · exact (ih a ha hc).imp_left fun hc => .inr ⟨a, ha, hc⟩
  | var name => exact .inl h
  | hole id =>
    simp only [fill] at h
    split at h
    · exact .inr h
    · exact .inl h
  | record fields ih =>
    simp only [fill, fillFields_eq, mem_constructors_record, List.mem_map] at h ⊢
    obtain ⟨_, ⟨f, hf, rfl⟩, hc⟩ := h
    exact (ih f hf hc).imp_left fun hc => ⟨f, hf, hc⟩

/-- Replacing variables keeps the constructors and brings those of the new types. -/
theorem mem_constructors_substVars {m : List (String × Ty)} {t : Ty} (h : c ∈ (substVars m t).constructors) :
    c ∈ t.constructors ∨ ∃ e ∈ m, c ∈ e.2.constructors := by
  induction t using induct with
  | con name args ih =>
    simp only [substVars, substVarsList_eq, mem_constructors_con, List.length_map, List.mem_map] at h ⊢
    rcases h with h | ⟨_, ⟨a, ha, rfl⟩, hc⟩
    · exact .inl (.inl h)
    · exact (ih a ha hc).imp_left fun hc => .inr ⟨a, ha, hc⟩
  | var name =>
    simp only [substVars] at h
    cases hget : Table.get? m name with
    | none => simp [hget] at h
    | some u => exact .inr ⟨_, Table.mem_of_get? hget, by simpa [hget] using h⟩
  | hole id => exact .inl h
  | record fields ih =>
    simp only [substVars, substVarsFields_eq, mem_constructors_record, List.mem_map] at h ⊢
    obtain ⟨_, ⟨f, hf, rfl⟩, hc⟩ := h
    exact (ih f hf hc).imp_left fun hc => ⟨f, hf, hc⟩

end

/-! ## Names of the language -/

/-- Every constructor is one of the language's own: the type has no alias in it. -/
def Expanded (t : Ty) : Prop :=
  ∀ c ∈ t.constructors, c.1 ∈ builtinNames

instance (t : Ty) : Decidable t.Expanded :=
  inferInstanceAs (Decidable (∀ c ∈ t.constructors, c.1 ∈ builtinNames))

/-! ## Numbers of parameters -/

/-- The number of parameters that a constructor takes; a tuple has any number of components. -/
def arity? (name : String) : Option Nat :=
  if name = "Tuple" then none
  else if name = "Function" ∨ name = "Block" then some 2
  else if name = "List" then some 1
  else some 0

/-- The constructor has the parameters that it takes. -/
def Fits (c : String × Nat) : Prop :=
  ∀ n ∈ arity? c.1, c.2 = n

/-- Every constructor has the parameters that it takes. -/
def Saturated (t : Ty) : Prop :=
  ∀ c ∈ t.constructors, Fits c

section
variable {name : String} {args : List Ty} {fields : List (String × Ty)} {t u : Ty}

instance (c : String × Nat) : Decidable (Fits c) :=
  inferInstanceAs (Decidable (∀ n ∈ arity? c.1, c.2 = n))

instance (t : Ty) : Decidable t.Saturated :=
  inferInstanceAs (Decidable (∀ c ∈ t.constructors, Fits c))

@[simp] theorem saturated_con :
    (Ty.con name args).Saturated ↔ Fits (name, args.length) ∧ ∀ a ∈ args, a.Saturated := by
  simp only [Saturated, mem_constructors_con]
  constructor
  · intro h
    exact ⟨h _ (.inl rfl), fun a ha c hc => h c (.inr ⟨a, ha, hc⟩)⟩
  · rintro ⟨hfits, hargs⟩ c (rfl | ⟨a, ha, hc⟩)
    · exact hfits
    · exact hargs a ha c hc

@[simp] theorem saturated_var : (Ty.var name).Saturated := by
  simp [Saturated]

@[simp] theorem saturated_hole {id : Nat} : (Ty.hole id).Saturated := by
  simp [Saturated]

@[simp] theorem saturated_record : (Ty.record fields).Saturated ↔ ∀ f ∈ fields, f.2.Saturated := by
  simp only [Saturated, mem_constructors_record]
  constructor
  · intro h f hf c hc
    exact h c ⟨f, hf, hc⟩
  · rintro h c ⟨f, hf, hc⟩
    exact h f hf c hc

theorem Saturated.fill {i : Nat} (ht : t.Saturated) (hu : u.Saturated) : (fill i u t).Saturated := by
  intro c hc
  rcases mem_constructors_fill hc with hc | hc
  · exact ht c hc
  · exact hu c hc

theorem Saturated.substVars {m : List (String × Ty)} (ht : t.Saturated) (hm : ∀ e ∈ m, e.2.Saturated) :
    (substVars m t).Saturated := by
  intro c hc
  rcases mem_constructors_substVars hc with hc | ⟨e, he, hc⟩
  · exact ht c hc
  · exact hm e he c hc

theorem Saturated.applyBindings {bs : Bindings} (ht : t.Saturated) (hbs : ∀ b ∈ bs, b.2.Saturated) :
    (applyBindings bs t).Saturated := by
  induction bs with
  | nil => exact ht
  | cons b bs ih =>
    obtain ⟨hb, hbs⟩ := List.forall_mem_cons.1 hbs
    exact (ih hbs).fill hb

end

end VeriScript.Ty
