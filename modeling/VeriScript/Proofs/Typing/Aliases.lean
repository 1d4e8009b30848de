import VeriScript.Proofs.Ty.Constructors
import VeriScript.Proofs.Typing.Rules

/-!
# Aliases and what they stand for

* `Ty.Named` — every name in a type has a meaning: it is the language's own, or an alias without parameters.
* `Ty.expand` — the type with every alias replaced by its entry.
* `Ty.resolve_eq_ok_iff` — resolution accepts the types whose names have a meaning, and replaces the aliases in them.
* `Aliases.define`, `Aliases.defineAll` — the table behind definitions, whether they are accepted or not.
* `Aliases.Expanded` — the entries have no aliases in them; every definition keeps it so.
* `Aliases.resolve_defineAll` — a definition concerns the types that mention its name, and no others.
-/

namespace VeriScript

/-- The entries of the table have no aliases in them. -/
def Aliases.Expanded (al : Aliases) : Prop :=
  ∀ e ∈ al, e.2.Expanded

instance (al : Aliases) : Decidable al.Expanded :=
  inferInstanceAs (Decidable (∀ e ∈ al, e.2.Expanded))

namespace Ty

/-- Every name in the type is the language's own, or an alias without parameters. -/
def Named (al : Aliases) (t : Ty) : Prop :=
  ∀ c ∈ t.constructors, c.1 ∈ builtinNames ∨ Table.has al c.1 = true ∧ c.2 = 0

mutual

/-- The type with every alias replaced by its entry. -/
def expand (al : Aliases) : Ty → Ty
  | .con name args =>
    if name ∈ builtinNames then .con name (expandList al args)
    else (Table.get? al name).getD (.con name (expandList al args))
  | .var name => .var name
  | .hole id => .hole id
  | .record fields => .record (expandFields al fields)

def expandList (al : Aliases) : List Ty → List Ty
  | [] => []
  | t :: ts => expand al t :: expandList al ts

def expandFields (al : Aliases) : List (String × Ty) → List (String × Ty)
  | [] => []
  | (k, t) :: fs => (k, expand al t) :: expandFields al fs

end

variable {al al' : Aliases} {name : String} {args : List Ty} {fields : List (String × Ty)} {t u : Ty}

@[simp] theorem expandList_eq (ts : List Ty) : expandList al ts = ts.map (expand al) := by
  induction ts with
  | nil => rfl
  | cons t ts ih => simp [expandList, ih]

@[simp] theorem expandFields_eq (fs : List (String × Ty)) :
    expandFields al fs = fs.map fun f => (f.1, expand al f.2) := by
  induction fs with
  | nil => rfl
  | cons f fs ih => simp [expandFields, ih]

theorem named_con : (Ty.con name args).Named al ↔
    (name ∈ builtinNames ∨ Table.has al name = true ∧ args = []) ∧ ∀ a ∈ args, a.Named al := by
  simp only [Named, mem_constructors_con]
  constructor
  · intro h
    refine ⟨?_, fun a ha c hc => h c (.inr ⟨a, ha, hc⟩)⟩
    simpa using h _ (.inl rfl)
  · rintro ⟨hname, hargs⟩ c (rfl | ⟨a, ha, hc⟩)
    · simpa using hname
    · exact hargs a ha c hc

theorem named_record : (Ty.record fields).Named al ↔ ∀ f ∈ fields, f.2.Named al := by
  simp only [Named, mem_constructors_record]
  constructor
  · intro h f hf c hc
    exact h c ⟨f, hf, hc⟩
  · rintro h c ⟨f, hf, hc⟩
    exact h f hf c hc

/-! ## Resolution -/

theorem bind_eq_ok_iff {ε α β : Type} {x : Except ε α} {f : α → Except ε β} {b : β} :
    (x >>= f) = .ok b ↔ ∃ a, x = .ok a ∧ f a = .ok b := by
  cases x <;> simp [bind, Except.bind]

theorem bind_bind_eq_ok_iff {ε α β γ : Type} {x : Except ε α} {y : Except ε β} {P Q : Prop} {a : α} {b : β} {c : γ}
    (f : α → β → γ) (hx : ∀ u, x = .ok u ↔ P ∧ u = a) (hy : ∀ v, y = .ok v ↔ Q ∧ v = b) :
    (do return f (← x) (← y)) = Except.ok c ↔ (P ∧ Q) ∧ c = f a b := by
  simp only [bind_eq_ok_iff, hx, hy, pure, Except.pure, Except.ok.injEq]
  constructor
  · rintro ⟨_, ⟨hP, rfl⟩, _, ⟨hQ, rfl⟩, rfl⟩
    exact ⟨⟨hP, hQ⟩, rfl⟩
  · rintro ⟨⟨hP, hQ⟩, rfl⟩
    exact ⟨_, ⟨hP, rfl⟩, _, ⟨hQ, rfl⟩, rfl⟩

theorem resolveName_eq_ok_iff : resolveName al name args = .ok u ↔
    (name ∈ builtinNames ∨ Table.has al name = true ∧ args = []) ∧
      u = if name ∈ builtinNames then .con name args else (Table.get? al name).getD (.con name args) := by
  unfold resolveName
  by_cases hbuiltin : name ∈ builtinNames
  · simp [hbuiltin, eq_comm (b := u)]
  · cases hget : Table.get? al name with
    | none => simp [hbuiltin, Table.has, hget]
    | some v => cases args <;> simp [hbuiltin, Table.has, hget, eq_comm (b := u)]

theorem resolveList_eq_ok_iff {ts us : List Ty}
    (h : ∀ t ∈ ts, ∀ u, t.resolve al = .ok u ↔ t.Named al ∧ u = t.expand al) :
    resolveList al ts = .ok us ↔ (∀ t ∈ ts, t.Named al) ∧ us = ts.map (expand al) := by
  induction ts generalizing us with
  | nil => simp [resolveList, eq_comm]
  | cons t ts ih =>
    obtain ⟨ht, hts⟩ := List.forall_mem_cons.1 h
    rw [resolveList, bind_bind_eq_ok_iff List.cons ht fun _ => ih hts, List.forall_mem_cons, List.map_cons]

theorem resolveFields_eq_ok_iff {fs gs : List (String × Ty)}
    (h : ∀ f ∈ fs, ∀ u, f.2.resolve al = .ok u ↔ f.2.Named al ∧ u = f.2.expand al) :
    resolveFields al fs = .ok gs ↔ (∀ f ∈ fs, f.2.Named al) ∧ gs = fs.map fun f => (f.1, f.2.expand al) := by
  induction fs generalizing gs with
  | nil => simp [resolveFields, eq_comm]
  | cons f fs ih =>
    obtain ⟨hf, hfs⟩ := List.forall_mem_cons.1 h
    rw [resolveFields, bind_bind_eq_ok_iff (fun u us => (f.1, u) :: us) hf fun _ => ih hfs, List.forall_mem_cons,
      List.map_cons]

theorem resolve_eq_ok_iff : t.resolve al = .ok u ↔ t.Named al ∧ u = t.expand al := by
  induction t using induct generalizing u with
  | con name args ih =>
    have hargs : ∀ us, resolveList al args = .ok us ↔ (∀ a ∈ args, a.Named al) ∧ us = args.map (expand al) :=
      fun us => resolveList_eq_ok_iff fun a ha u => ih a ha
    simp only [resolve, bind_eq_ok_iff, hargs, resolveName_eq_ok_iff, named_con, expand, expandList_eq]
    constructor
    · rintro ⟨_, ⟨hnamed, rfl⟩, hname, rfl⟩
      rw [List.map_eq_nil_iff] at hname
      exact ⟨⟨hname, hnamed⟩, rfl⟩
    · rintro ⟨⟨hname, hnamed⟩, rfl⟩
      rw [← List.map_eq_nil_iff (f := expand al)] at hname
      exact ⟨_, ⟨hnamed, rfl⟩, hname, rfl⟩
  | var name => simp [resolve, expand, Named, eq_comm (b := u)]
  | hole id => simp [resolve, expand, Named, eq_comm (b := u)]
  | record fields ih =>
    have hfields : ∀ gs, resolveFields al fields = .ok gs ↔
        (∀ f ∈ fields, f.2.Named al) ∧ gs = fields.map fun f => (f.1, f.2.expand al) :=
      fun gs => resolveFields_eq_ok_iff fun f hf u => ih f hf
    simp only [resolve, bind_eq_ok_iff, hfields, named_record, expand, expandFields_eq, pure, Except.pure,
      Except.ok.injEq]
    constructor
    · rintro ⟨_, ⟨hnamed, rfl⟩, rfl⟩
      exact ⟨hnamed, rfl⟩
    · rintro ⟨hnamed, rfl⟩
      exact ⟨_, ⟨hnamed, rfl⟩, rfl⟩

/-- A type is accepted if and only if every name in it has a meaning. -/
theorem resolve_accepts_iff : (∃ u, t.resolve al = .ok u) ↔ t.Named al := by
  simp [resolve_eq_ok_iff]

/-- A property of the entries that holds of a name with its arguments holds of what the name stands for. -/
theorem expand_con_holds {P : Ty → Prop} (hal : ∀ e ∈ al, P e.2) (h : P (.con name (args.map (expand al)))) :
    P (expand al (.con name args)) := by
  rw [expand, expandList_eq]
  split
  · exact h
  · cases hget : Table.get? al name with
    | none => exact h
    | some v => exact hal _ (Table.mem_of_get? hget)

/-! ## Types without aliases -/

/-- A type without aliases has a meaning under every table. -/
theorem Expanded.named (h : t.Expanded) (al : Aliases) : t.Named al :=
  fun c hc => .inl (h c hc)

theorem Expanded.expand_eq (h : t.Expanded) (al : Aliases) : t.expand al = t := by
  induction t using induct with
  | con name args ih =>
    have hname : name ∈ builtinNames := h (name, args.length) (by simp)
    have hargs : ∀ a ∈ args, a.expand al = a := by
      intro a ha
      apply ih a ha
      intro c hc
      exact h c (mem_constructors_con.2 (.inr ⟨a, ha, hc⟩))
    simp only [expand, hname, if_true, expandList_eq, con.injEq, true_and]
    exact (List.map_congr_left hargs).trans (List.map_id _)
  | var name => rfl
  | hole id => rfl
  | record fields ih =>
    have hfields : ∀ f ∈ fields, (f.1, f.2.expand al) = f := by
      intro f hf
      rw [ih f hf fun c hc => h c (mem_constructors_record.2 ⟨f, hf, hc⟩)]
    simp only [expand, expandFields_eq, record.injEq]
    exact (List.map_congr_left hfields).trans (List.map_id _)

/-- The aliases in a type are gone when they have been replaced. -/
theorem expanded_expand (hal : al.Expanded) (ht : t.Named al) : (t.expand al).Expanded := by
  induction t using induct with
  | con name args ih =>
    obtain ⟨hname, hargs⟩ := named_con.1 ht
    by_cases hbuiltin : name ∈ builtinNames
    · simp only [expand, hbuiltin, if_true, expandList_eq]
      intro c hc
      rw [mem_constructors_con] at hc
      rcases hc with rfl | ⟨_, hmem, hc⟩
      · exact hbuiltin
      · obtain ⟨a, ha, rfl⟩ := List.mem_map.1 hmem
        exact ih a ha (hargs a ha) c hc
    · obtain ⟨hhas, -⟩ := hname.resolve_left hbuiltin
      obtain ⟨v, hget⟩ := Option.isSome_iff_exists.1 hhas
      have hv : v.Expanded := hal _ (Table.mem_of_get? hget)
      simpa [expand, hbuiltin, hget] using hv
  | var name => exact fun c hc => absurd hc (by simp [expand])
  | hole id => exact fun c hc => absurd hc (by simp [expand])
  | record fields ih =>
    intro c hc
    simp only [expand, expandFields_eq, mem_constructors_record, List.mem_map] at hc
    obtain ⟨_, ⟨f, hf, rfl⟩, hc⟩ := hc
    exact ih f hf (named_record.1 ht f hf) c hc

/-- What a type stands for has no aliases in it, and stands for itself under any table. -/
theorem resolve_expanded (hal : al.Expanded) (h : t.resolve al = .ok u) :
    u.Expanded ∧ ∀ al', u.resolve al' = .ok u := by
  obtain ⟨hnamed, rfl⟩ := resolve_eq_ok_iff.1 h
  have hexpanded := expanded_expand hal hnamed
  exact ⟨hexpanded, fun al' => resolve_eq_ok_iff.2 ⟨hexpanded.named al', (hexpanded.expand_eq al').symm⟩⟩

/-! ## Tables that agree -/

theorem resolveName_congr (h : Table.get? al' name = Table.get? al name) :
    resolveName al' name args = resolveName al name args := by
  simp only [resolveName, h]

theorem resolveList_congr {ts : List Ty} (h : ∀ t ∈ ts, t.resolve al' = t.resolve al) :
    resolveList al' ts = resolveList al ts := by
  induction ts with
  | nil => rfl
  | cons t ts ih =>
    obtain ⟨ht, hts⟩ := List.forall_mem_cons.1 h
    simp only [resolveList, ht, ih hts]

theorem resolveFields_congr {fs : List (String × Ty)} (h : ∀ f ∈ fs, f.2.resolve al' = f.2.resolve al) :
    resolveFields al' fs = resolveFields al fs := by
  induction fs with
  | nil => rfl
  | cons f fs ih =>
    obtain ⟨hf, hfs⟩ := List.forall_mem_cons.1 h
    simp only [resolveFields, hf, ih hfs]

/-- Only the entries of the names in a type matter to what it stands for. -/
theorem resolve_congr (h : ∀ c ∈ t.constructors, Table.get? al' c.1 = Table.get? al c.1) :
    t.resolve al' = t.resolve al := by
  induction t using induct with
  | con name args ih =>
    have hargs : resolveList al' args = resolveList al args := by
      apply resolveList_congr
      intro a ha
      exact ih a ha fun c hc => h c (mem_constructors_con.2 (.inr ⟨a, ha, hc⟩))
    have hname : Table.get? al' name = Table.get? al name := h (name, args.length) (by simp)
    simp only [resolve, hargs, resolveName_congr hname]
  | var name => rfl
  | hole id => rfl
  | record fields ih =>
    have hfields : resolveFields al' fields = resolveFields al fields := by
      apply resolveFields_congr
      intro f hf
      exact ih f hf fun c hc => h c (mem_constructors_record.2 ⟨f, hf, hc⟩)
    simp only [resolve, hfields]

end Ty

/-! ## Definitions -/

/-- A definition of an alias, as it is written. -/
structure TypeDefinition where
  span : Span
  name : String
  type : Ty

namespace Aliases

/-- The table behind a definition: a definition that is not accepted leaves it as it was. -/
def define (al : Aliases) (d : TypeDefinition) : Aliases :=
  match d.type.resolve al with
  | .ok t => Table.insert al d.name t
  | .error _ => al

/-- The table behind definitions, one after another. -/
def defineAll (al : Aliases) (defs : List TypeDefinition) : Aliases :=
  defs.foldl define al

/-- Every definition is accepted under the table that those before it lead to. -/
def Accepts (al : Aliases) : List TypeDefinition → Prop
  | [] => True
  | d :: defs => d.type.Named al ∧ Accepts (define al d) defs

variable {al : Aliases} {d : TypeDefinition} {name : String} {t : Ty}

theorem define_of_ok (h : d.type.resolve al = .ok t) : define al d = Table.insert al d.name t := by
  simp [define, h]

theorem define_of_error {fault : TypeFault} (h : d.type.resolve al = .error fault) : define al d = al := by
  simp [define, h]

@[simp] theorem defineAll_cons (defs : List TypeDefinition) :
    defineAll al (d :: defs) = defineAll (define al d) defs := rfl

theorem defineAll_append (defs more : List TypeDefinition) :
    defineAll al (defs ++ more) = defineAll (defineAll al defs) more :=
  List.foldl_append

/-- A definition keeps the entries free of aliases: it stores what its type stands for. -/
theorem Expanded.define (h : al.Expanded) (d : TypeDefinition) : (define al d).Expanded := by
  cases hresolve : d.type.resolve al with
  | error fault =>
    rw [define_of_error hresolve]
    exact h
  | ok t =>
    rw [define_of_ok hresolve]
    intro e he
    rcases List.mem_cons.1 he with rfl | he
    · exact (Ty.resolve_expanded h hresolve).1
    · exact h e (Table.mem_of_mem_erase he)

theorem Expanded.defineAll (h : al.Expanded) (defs : List TypeDefinition) : (defineAll al defs).Expanded := by
  induction defs generalizing al with
  | nil => exact h
  | cons d defs ih => exact ih (h.define d)

theorem get?_define_of_ne (h : d.name ≠ name) : Table.get? (define al d) name = Table.get? al name := by
  cases hresolve : d.type.resolve al with
  | error fault => rw [define_of_error hresolve]
  | ok t =>
    rw [define_of_ok hresolve]
    exact Table.get?_insert_of_ne (Ne.symm h)

theorem get?_defineAll_of_ne {defs : List TypeDefinition} (h : ∀ d ∈ defs, d.name ≠ name) :
    Table.get? (defineAll al defs) name = Table.get? al name := by
  induction defs generalizing al with
  | nil => rfl
  | cons d defs ih =>
    obtain ⟨hd, hdefs⟩ := List.forall_mem_cons.1 h
    rw [defineAll_cons, ih hdefs, get?_define_of_ne hd]

/-- Definitions concern the types that mention their names, and no others: also a type that stands for something
defined by way of one of these names keeps its meaning. -/
theorem resolve_defineAll {defs : List TypeDefinition} (h : ∀ d ∈ defs, ∀ c ∈ t.constructors, d.name ≠ c.1) :
    t.resolve (defineAll al defs) = t.resolve al := by
  apply Ty.resolve_congr
  intro c hc
  exact get?_defineAll_of_ne fun d hd => h d hd c hc

end Aliases

end VeriScript
