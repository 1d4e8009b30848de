import Mathlib.Data.List.Nodup
import VeriScript.Proofs.Run.Widening
import VeriScript.Proofs.Session.Primitives

/-!
# Enabling lifecycles in any order

Enabling a lifecycle gives the names that have no entries yet those of its primitives.  It does not matter when this
is done: before or after another lifecycle, once or twice, and before or after a declaration that does without the
primitives.

* `Session.Same` — sessions that are the same as maps.
* `Session.Reveals` — what enabling a lifecycle adds to a session.
* `Session.enable_enable`, `Session.enable_comm` — enabling again, and in the other order.
* `Session.merge_enable` — the names of a local environment, added before or after.
* `enabling_order_irrelevant` — the same of declarations at the top level.
-/

namespace VeriScript

/-- The sessions are the same as maps: the order of the entries in their tables does not count. -/
structure Session.Same (s s' : Session) : Prop where
  values : ∀ x, Table.get? s.values x = Table.get? s'.values x
  types : ∀ x, Table.get? s.types x = Table.get? s'.types x
  docs : ∀ x, Table.get? s.docs x = Table.get? s'.docs x
  lifecycles : ∀ life, life ∈ s.lifecycles ↔ life ∈ s'.lifecycles
  aliases : s.aliases = s'.aliases
  terms : s.terms = s'.terms
  proofs : s.proofs = s'.proofs
  display : s.display = s'.display

/-- The entries of the first session are entries of the second. -/
structure Session.Retains (s s' : Session) : Prop where
  values : ∀ x v, Table.get? s.values x = some v → Table.get? s'.values x = some v
  types : ∀ x schema, Table.get? s.types x = some schema → Table.get? s'.types x = some schema
  docs : ∀ x text, Table.get? s.docs x = some text → Table.get? s'.docs x = some text

/-- The primitive of a lifecycle with a name. -/
def primitive? (life : Lifecycle) (name : String) : Option PrimitiveEntry :=
  primitives.find? fun e => e.life == life && e.name == name

/-- The second session is the first with the primitives of a lifecycle, as far as their names have no entries. -/
structure Session.Reveals (s : Session) (life : Lifecycle) (s' : Session) : Prop where
  values : ∀ x, Table.get? s'.values x = (Table.get? s.values x).or ((primitive? life x).map (·.value))
  types : ∀ x, Table.get? s'.types x = (Table.get? s.types x).or ((primitive? life x).map (·.schema))
  docs : ∀ x, Table.get? s'.docs x = (Table.get? s.docs x).or ((primitive? life x).map (·.help))
  lifecycles : ∀ other, other ∈ s'.lifecycles ↔ other ∈ s.lifecycles ∨ other = life
  rest : s' = { s with values := s'.values, types := s'.types, docs := s'.docs, lifecycles := s'.lifecycles }

/-! ## Primitives -/

theorem primitives_distinct : (primitives.map (·.name)).Nodup := by decide

theorem primitive?_eq_some {life : Lifecycle} {x : String} {e : PrimitiveEntry} (h : primitive? life x = some e) :
    e ∈ primitives ∧ e.name = x := by
  have htest := List.find?_some h
  simp only [Bool.and_eq_true, beq_iff_eq] at htest
  exact ⟨List.mem_of_find?_eq_some h, htest.2⟩

theorem primitive?_unique {life other : Lifecycle} {x : String} {e e' : PrimitiveEntry}
    (h : primitive? life x = some e) (h' : primitive? other x = some e') : e = e' := by
  obtain ⟨hmem, hname⟩ := primitive?_eq_some h
  obtain ⟨hmem', hname'⟩ := primitive?_eq_some h'
  exact List.inj_on_of_nodup_map primitives_distinct hmem hmem' (hname.trans hname'.symm)

theorem get?_available {α : Type} (f : PrimitiveEntry → α) (life : Lifecycle) (x : String) :
    Table.get? ((available [life]).map fun e => (e.name, f e)) x = (primitive? life x).map f := by
  rw [get?_entries, available, List.find?_filter, primitive?]
  simp only [List.contains_cons, List.contains_nil, Bool.or_false, Bool.decide_and, Bool.decide_eq_true]

/-- Which of two lifecycles comes first does not matter for a name. -/
theorem or_primitive?_comm {α : Type} (f : PrimitiveEntry → α) (life other : Lifecycle) (x : String)
    (old : Option α) :
    (old.or ((primitive? life x).map f)).or ((primitive? other x).map f) =
      (old.or ((primitive? other x).map f)).or ((primitive? life x).map f) := by
  rw [Option.or_assoc, Option.or_assoc]
  cases hlife : primitive? life x with
  | none => simp
  | some e =>
    cases hother : primitive? other x with
    | none => simp
    | some e' => rw [primitive?_unique hlife hother]

/-! ## Tables -/

namespace Session

variable {α : Type} (table new : List (String × α))

theorem addMissing_self : addMissing (addMissing table new) new = addMissing table new := by
  have hhas : ∀ e ∈ new, Table.has (addMissing table new) e.1 = true := by
    intro e he
    obtain ⟨v, hv⟩ := Table.exists_get?_of_mem he
    rw [Table.has, get?_addMissing, hv]
    cases Table.get? table e.1 <;> rfl
  have hnone : (new.filter fun e => !Table.has (addMissing table new) e.1) = [] := by
    rw [List.filter_eq_nil_iff]
    intro e he
    simp [hhas e he]
  rw [addMissing.eq_def (addMissing table new), hnone, List.append_nil]

theorem get?_insert_addMissing (name : String) (v : α) (x : String) :
    Table.get? (Table.insert (addMissing table new) name v) x =
      Table.get? (addMissing (Table.insert table name v) new) x := by
  rw [get?_addMissing]
  by_cases hx : x = name
  · subst hx
    rw [Table.get?_insert_self, Table.get?_insert_self, Option.some_or]
  · rw [Table.get?_insert_of_ne hx, Table.get?_insert_of_ne hx, get?_addMissing]

end Session

/-! ## Sessions -/

namespace Session

namespace Same

variable {s s' s'' : Session}

theorem refl (s : Session) : s.Same s :=
  ⟨fun _ => rfl, fun _ => rfl, fun _ => rfl, fun _ => Iff.rfl, rfl, rfl, rfl, rfl⟩

theorem trans (h : s.Same s') (h' : s'.Same s'') : s.Same s'' where
  values x := (h.values x).trans (h'.values x)
  types x := (h.types x).trans (h'.types x)
  docs x := (h.docs x).trans (h'.docs x)
  lifecycles life := (h.lifecycles life).trans (h'.lifecycles life)
  aliases := h.aliases.trans h'.aliases
  terms := h.terms.trans h'.terms
  proofs := h.proofs.trans h'.proofs
  display := h.display.trans h'.display

theorem get?_insert {α : Type} {t t' : List (String × α)} (h : ∀ x, Table.get? t x = Table.get? t' x) (name : String)
    (v : α) (x : String) : Table.get? (Table.insert t name v) x = Table.get? (Table.insert t' name v) x := by
  by_cases hx : x = name
  · subst hx
    rw [Table.get?_insert_self, Table.get?_insert_self]
  · rw [Table.get?_insert_of_ne hx, Table.get?_insert_of_ne hx, h]

theorem extend (h : s.Same s') (name : String) (schema? : Option Schema) (v : Value) :
    (s.extend name schema? v).Same (s'.extend name schema? v) where
  values := get?_insert h.values name v
  types := by
    cases schema? with
    | none => exact h.types
    | some schema => exact get?_insert h.types name schema
  docs := h.docs
  lifecycles := h.lifecycles
  aliases := h.aliases
  terms := by simp only [Session.extend, h.terms]
  proofs := h.proofs
  display := h.display

theorem addAlias (h : s.Same s') (name : String) (t : Ty) : (s.addAlias name t).Same (s'.addAlias name t) :=
  { h with aliases := by simp only [Session.addAlias, h.aliases] }

end Same

variable (s : Session) (life other : Lifecycle)

theorem enable_reveals : s.Reveals life (s.enable life) where
  values x := by rw [enable, get?_addMissing, get?_available]
  types x := by rw [enable, get?_addMissing, primitiveTypes, get?_available]
  docs x := by rw [enable, get?_addMissing, get?_available]
  lifecycles other := by
    unfold enable
    dsimp only
    split
    · rename_i hlife
      refine ⟨.inl, fun h => h.elim id fun h => ?_⟩
      simpa [h] using hlife
    · simp
  rest := rfl

theorem Reveals.retains {s s' : Session} {life : Lifecycle} (h : s.Reveals life s') : s.Retains s' where
  values x v hx := by rw [h.values, hx, Option.some_or]
  types x schema hx := by rw [h.types, hx, Option.some_or]
  docs x text hx := by rw [h.docs, hx, Option.some_or]

theorem enable_widens : s.Widens (s.enable life) where
  values := (s.enable_reveals life).retains.values
  typeEnv :=
    { aliases := rfl
      types := (s.enable_reveals life).retains.types
      kept := fun _ he => List.mem_append_left _ he
      added := fun e he => (List.mem_append.1 he).imp_right fun hnew =>
        (primitiveTypes_complete [life] e (List.mem_filter.1 hnew).1).noHoles }
  terms := rfl

theorem enable_enable : (s.enable life).enable life = s.enable life := by
  have hlife : (s.enable life).lifecycles.contains life = true := by
    simp [(s.enable_reveals life).lifecycles]
  unfold enable at hlife ⊢
  simp only [addMissing_self, hlife, if_true]

theorem enable_comm : ((s.enable life).enable other).Same ((s.enable other).enable life) where
  values x := by simp only [(enable_reveals _ _).values, or_primitive?_comm (·.value) life other]
  types x := by simp only [(enable_reveals _ _).types, or_primitive?_comm (·.schema) life other]
  docs x := by simp only [(enable_reveals _ _).docs, or_primitive?_comm (·.help) life other]
  lifecycles x := by simp only [(enable_reveals _ _).lifecycles, or_right_comm]
  aliases := rfl
  terms := rfl
  proofs := rfl
  display := rfl

/-- A name may be bound before or after: either way it has the value that it is bound to. -/
theorem extend_enable (name : String) (schema? : Option Schema) (v : Value) :
    ((s.enable life).extend name schema? v).Same ((s.extend name schema? v).enable life) where
  values := get?_insert_addMissing _ _ name v
  types := by
    cases schema? with
    | none => exact fun x => rfl
    | some schema => exact get?_insert_addMissing _ _ name schema
  docs x := rfl
  lifecycles _ := Iff.rfl
  aliases := rfl
  terms := rfl
  proofs := rfl
  display := rfl

theorem merge_enable (env : Env) : ((s.enable life).merge env).Same ((s.merge env).enable life) := by
  induction env with
  | nil => exact .refl _
  | cons entry env ih =>
    cases entry with
    | value name schema? v => exact (ih.extend name schema? v).trans (extend_enable _ life name schema? v)
    | typedef name t => exact ih.addAlias name t
    | recursive members =>
      refine List.foldl_rel (r := fun s1 s2 : Session => s1.Same (s2.enable life)) ih fun m _ s1 s2 hs => ?_
      exact (hs.extend m.name m.schema? _).trans (extend_enable s2 life m.name m.schema? _)

end Session

/-- Enabling a lifecycle reveals its primitives and keeps every entry.  It does not matter whether it is done once or
twice, before or after another lifecycle is enabled, and before or after a declaration at the top level: a declaration
that succeeds without the primitives also succeeds with them, prints the same, and leads to the same session, even if
it binds their names itself. -/
theorem enabling_order_irrelevant (s : Session) (life other : Lifecycle) :
    (s.enable life).enable life = s.enable life ∧
    ((s.enable life).enable other).Same ((s.enable other).enable life) ∧
    s.Retains (s.enable life) ∧
    s.Reveals life (s.enable life) ∧
    ∀ (run : RunAction) (ctx : Context) (printBinds : Bool) (span : Span) (g : Group) (w w' : World),
      w.session = s → runStmt run ctx printBinds (.define span g) w = .ok () w' →
        ∃ s', runStmt run ctx printBinds (.define span g) { w with session := s.enable life } =
          .ok () { w' with session := s' } ∧ s'.Same (w'.session.enable life) := by
  refine ⟨s.enable_enable life, s.enable_comm life other, (s.enable_reveals life).retains, s.enable_reveals life, ?_⟩
  rintro run ctx printBinds span g w w' rfl hrun
  obtain ⟨env, henv, hwide⟩ := runStmt_widens (w.session.enable_widens life) hrun
  refine ⟨_, hwide, ?_⟩
  rw [henv]
  exact w.session.merge_enable life env

/-- `let (summarize_verification, n) = let write_coq_term = \x -> x in (write_coq_term, write_coq_term 2);` binds the
names of two experimental primitives, with types and values of its own. -/
theorem enabling_order_irrelevant_summarize :
    let pos := Span.point "" 1 1
    let identity : Decl := .mk pos (.var pos "write_coq_term" none) (.lam pos (.var pos "x" none) (.var pos "x"))
    let body : Expr := .tuple pos [.var pos "write_coq_term", .app pos (.var pos "write_coq_term") (.int pos 2)]
    let pattern : Pattern := .tuple pos [.var pos "summarize_verification" none, .var pos "n" none] none
    let stmt : Stmt := .define pos (.single pos (.mk pos pattern (.letIn pos (.single pos identity) body)))
    let w := World.blank
    (primitive? .experimental "summarize_verification").isSome ∧ (primitive? .experimental "write_coq_term").isSome ∧
      ∃ w' s', runStmt perform .standard false stmt w = .ok () w' ∧
        runStmt perform .standard false stmt { w with session := w.session.enable .experimental } =
          .ok () { w' with session := s' } ∧
        s'.Same (w'.session.enable .experimental) := by
  intro pos identity body pattern stmt w
  have hpasses : Run.passes (fun _ _ => true) (runStmt perform .standard false stmt w) = true := by
    decide +kernel
  obtain ⟨⟨⟩, w', hrun, -⟩ := Run.exists_ok_of_passes hpasses
  have hdefine := (enabling_order_irrelevant w.session .experimental .deprecated).2.2.2.2
  obtain ⟨s', hs'⟩ := hdefine perform .standard false pos _ w w' rfl hrun
  exact ⟨by decide, by decide, w', s', hrun, hs'⟩

end VeriScript
